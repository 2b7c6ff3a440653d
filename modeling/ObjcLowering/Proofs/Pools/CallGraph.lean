import ObjcLowering.Pools.CallGraph
import ObjcLowering.Proofs.Nodes
import ObjcLowering.Proofs.Tables

/-!
What the analysis of syntax trees finds: its tables hold exactly the pairs that some node contributes by
a call, a message to an object or an allocation.
-/

namespace ObjcLowering.Pools

open Ast

def AllPositive (t : Table Name Int) : Prop := ∀ e ∈ t.entries, 0 < e.2

theorem AllPositive.find? (ht : AllPositive t)
    (h : t.find? name = some n) : 0 < n := ht _ (Table.mem_of_find? h)

theorem AllPositive.bump (ht : AllPositive t) (name : Name) (hn : 0 < n) : AllPositive (t.bump name n) := by
  intro e he
  rcases Table.eq_or_mem_of_mem_set he with rfl | he
  · cases hfind : t.find? name with
    | none => simpa [hfind] using hn
    | some k =>
      have hk := ht.find? hfind
      simp only [Option.getD_some]
      omega
  · exact ht e he

theorem mem_names_bump {t : Table Name Int} :
    a ∈ (t.bump name n).names ↔ a ∈ t.names ∨ a = name := Table.mem_names_set

namespace Counts

def of (counts : Counts) (function : Name) : Table Name Int := (counts.find? function).getD {}

def Mentions (counts : Counts) (function name : Name) : Prop := name ∈ (counts.of function).names

def Positive (counts : Counts) : Prop := ∀ function, AllPositive (counts.of function)

variable {counts counts' : Counts}

theorem of_bump (h : counts.bump function name = .ok counts') (f : Name) :
    counts'.of f = if f = function then (counts.of f).bump name 1 else counts.of f := by
  simp only [Counts.bump, bind_eq_ok, pure_eq_ok] at h
  obtain ⟨f', hf', n', hn', rfl⟩ := h
  rw [asKey_eq_ok hf', asKey_eq_ok hn', of, Table.find?_set]
  split
  · next heq => rw [heq, Option.getD_some, of]
  · rfl

theorem mentions_bump (h : counts.bump function name = .ok counts') (f g : Name) :
    counts'.Mentions f g ↔ counts.Mentions f g ∨ (f = function ∧ g = name) := by
  rw [Mentions, of_bump h, Mentions]
  split
  · next heq => rw [mem_names_bump, and_iff_right heq]
  · next hne => simp [hne]

theorem Positive.bump (hcounts : counts.Positive) (h : counts.bump function name = .ok counts') :
    counts'.Positive := by
  intro f
  rw [of_bump h]
  split
  · exact (hcounts f).bump name Int.one_pos
  · exact hcounts f

end Counts

/-- The parts of a call name a function: the first reference or implicit cast among them decides. -/
inductive Designates : List Node → Name → Prop
  | ref : n.kind = "DeclRefExpr" →
      n.referencedName = .ok f → Designates (n :: ns) f
  | cast : n.kind = "ImplicitCastExpr" →
      Designates n.inner f → Designates (n :: ns) f
  | skip : n.kind ≠ "DeclRefExpr" →
      n.kind ≠ "ImplicitCastExpr" → Designates ns f → Designates (n :: ns) f

mutual

theorem calleeName_eq_some_iff : (n : Node) →
    calleeName n = .ok name → (name = some f ↔ Designates n.inner f)
  | .mk a ns, h => by
    rw [calleeName] at h
    split at h
    · cases h
    obtain ⟨_, -, h⟩ := bind_eq_ok.mp h
    exact calleeNameList_eq_some_iff ns h

theorem calleeNameList_eq_some_iff : (ns : List Node) →
    calleeNameList ns = .ok name → (name = some f ↔ Designates ns f)
  | [], h => by
    cases h
    constructor <;> intro hf <;> cases hf
  | n :: ns, h => by
    rw [calleeNameList] at h
    split at h
    · cases h
    split at h
    · next hkind =>
      cases href : n.referencedName with
      | error fault => simp [href, Except.map] at h
      | ok g =>
        simp only [href, Except.map, Except.ok.injEq] at h
        subst h
        constructor
        · intro hg
          cases hg
          exact .ref hkind href
        · intro hf
          cases hf with
          | ref _ hname => rw [Except.ok.inj (href.symm.trans hname)]
          | cast hcast => simp [hkind] at hcast
          | skip hne => exact absurd hkind hne
    next href =>
    split at h
    · next hkind =>
      rw [calleeName_eq_some_iff n h]
      refine ⟨.cast hkind, fun hf => ?_⟩
      cases hf with
      | ref hkind' => exact absurd hkind' href
      | cast _ hf => exact hf
      | skip _ hne => exact absurd hkind hne
    · next hcast =>
      rw [calleeNameList_eq_some_iff ns h]
      refine ⟨.skip href hcast, fun hf => ?_⟩
      cases hf with
      | ref hkind => exact absurd hkind href
      | cast hkind => exact absurd hkind hcast
      | skip _ _ hf => exact hf

end

inductive RefersTo : Node → Name → Prop
  | call : n.kind = "CallExpr" → Designates n.inner callee →
      callee.holds = true → RefersTo n callee
  /-- The method is looked for in the class that the type of the receiver names, and nowhere else. -/
  | send {n receiver : Node} {rest : List Node} {type cls : String} : n.kind = "ObjCMessageExpr" →
      n.receiverKind = "instance" → n.selector.holds = true → n.inner = receiver :: rest →
      receiver.qualType = .ok (.text type) → classOfType type = some cls →
      RefersTo n (.text s!"{cls}.{n.selector}")

structure Makes (n : Node) (cls : Name) : Prop where
  kind : n.kind = "ObjCMessageExpr"
  selector : n.selector = "alloc"
  receiver : n.receiverKind = "class"
  type : ∃ type, n.attrs.classType.get = .ok type ∧ type.qual.getD "" = cls
  holds : cls.holds = true

structure StartsThread (n : Node) (name : Name) : Prop where
  isFunction : isFunction n = true
  isEntry : isThreadEntry n = .ok true
  name : n.name = name

structure Adds (nodes : Name → Node → Prop) (found found' : Analysis) : Prop where
  calls : ∀ f g, found'.calls.Mentions f g ↔
    found.calls.Mentions f g ∨ ∃ n, nodes f n ∧ f.holds = true ∧ RefersTo n g
  allocs : ∀ f cls, found'.allocs.Mentions f cls ↔
    found.allocs.Mentions f cls ∨ ∃ n, nodes f n ∧ f.holds = true ∧ Makes n cls
  threads : ∀ t, t ∈ found'.threads ↔ t ∈ found.threads ∨ ∃ f n, nodes f n ∧ StartsThread n t
  positive : found.calls.Positive → found.allocs.Positive →
    found'.calls.Positive ∧ found'.allocs.Positive

variable {n : Node}

abbrev AddsNode (function : Name) (n : Node) : Analysis → Analysis → Prop :=
  Adds fun f k => f = function ∧ k = n

theorem AddsNode.none (hrefers : function.holds = true → ∀ g, ¬ RefersTo n g)
    (hmakes : function.holds = true → ∀ cls, ¬ Makes n cls)
    (hstarts : ∀ t, ¬ StartsThread n t) (found : Analysis) : AddsNode function n found found := by
  refine ⟨fun f g => ?_, fun f cls => ?_, fun t => ?_, fun hcalls hallocs => ⟨hcalls, hallocs⟩⟩
  · refine ⟨.inl, fun h => h.resolve_right ?_⟩
    rintro ⟨_, ⟨rfl, rfl⟩, hholds, hg⟩
    exact hrefers hholds g hg
  · refine ⟨.inl, fun h => h.resolve_right ?_⟩
    rintro ⟨_, ⟨rfl, rfl⟩, hholds, hcls⟩
    exact hmakes hholds cls hcls
  · simp [hstarts]

theorem AddsNode.call (hfunction : function.holds = true)
    (hrefers : ∀ g, RefersTo n g ↔ g = callee) (hmakes : ∀ cls, ¬ Makes n cls)
    (hstarts : ∀ t, ¬ StartsThread n t) (h : found.calls.bump function callee = .ok calls) :
    AddsNode function n found { found with calls } := by
  refine ⟨fun f g => ?_, fun f cls => ?_, fun t => ?_, fun hcalls hallocs =>
    ⟨hcalls.bump h, hallocs⟩⟩
  · rw [Counts.mentions_bump h]
    refine or_congr_right ⟨?_, ?_⟩
    · rintro ⟨rfl, rfl⟩
      exact ⟨n, ⟨rfl, rfl⟩, hfunction, (hrefers _).mpr rfl⟩
    · rintro ⟨_, ⟨rfl, rfl⟩, -, hg⟩
      exact ⟨rfl, (hrefers g).mp hg⟩
  · simp [hmakes]
  · simp [hstarts]

theorem AddsNode.alloc (hfunction : function.holds = true)
    (hrefers : ∀ g, ¬ RefersTo n g) (hmakes : ∀ cls, Makes n cls ↔ cls = made)
    (hstarts : ∀ t, ¬ StartsThread n t) (h : found.allocs.bump function made = .ok allocs) :
    AddsNode function n found { found with allocs } := by
  refine ⟨fun f g => ?_, fun f cls => ?_, fun t => ?_, fun hcalls hallocs =>
    ⟨hcalls, hallocs.bump h⟩⟩
  · simp [hrefers]
  · rw [Counts.mentions_bump h]
    refine or_congr_right ⟨?_, ?_⟩
    · rintro ⟨rfl, rfl⟩
      exact ⟨n, ⟨rfl, rfl⟩, hfunction, (hmakes _).mpr rfl⟩
    · rintro ⟨_, ⟨rfl, rfl⟩, -, hcls⟩
      exact ⟨rfl, (hmakes cls).mp hcls⟩
  · simp [hstarts]

theorem not_startsThread (h : n.kind ≠ "FunctionDecl") (t : Name) : ¬ StartsThread n t := by
  intro hstarts
  have hfunction := hstarts.isFunction
  rw [isFunction, Bool.and_eq_true, beq_iff_eq] at hfunction
  exact h hfunction.1

theorem not_makes (h : n.kind ≠ "ObjCMessageExpr") (cls : Name) : ¬ Makes n cls :=
  fun hmakes => h hmakes.kind

theorem not_refersTo (hmessage : n.kind ≠ "ObjCMessageExpr") (hcall : n.kind ≠ "CallExpr") (g : Name) :
    ¬ RefersTo n g := by
  intro hg
  cases hg with
  | call hkind => exact hcall hkind
  | send hkind => exact hmessage hkind

theorem refersTo_iff_of_call (hkind : n.kind = "CallExpr") :
    RefersTo n g ↔ Designates n.inner g ∧ g.holds = true := by
  refine ⟨fun hg => ?_, fun hg => .call hkind hg.1 hg.2⟩
  cases hg with
  | call _ hcallee hholds => exact ⟨hcallee, hholds⟩
  | send hsend => simp [hkind] at hsend

theorem addsNode_addCall (hkind : n.kind = "CallExpr") (hfunction : function.holds = true)
    (h : found.addCall function n = .ok found') : AddsNode function n found found' := by
  have hmakes := not_makes (n := n) (by rw [hkind]; decide)
  have hstarts := not_startsThread (n := n) (by rw [hkind]; decide)
  obtain ⟨name, hname, h⟩ := bind_eq_ok.mp h
  have hrefers : ∀ g, RefersTo n g ↔ name = some g ∧ g.holds = true := fun g => by
    rw [refersTo_iff_of_call hkind, calleeName_eq_some_iff n hname]
  cases hstated : stated? name with
  | none =>
    rw [hstated] at h
    cases h
    refine AddsNode.none (fun _ g hg => ?_) (fun _ => hmakes) hstarts found
    obtain ⟨rfl, hholds⟩ := (hrefers g).mp hg
    simp [stated?, hholds] at hstated
  | some callee =>
    rw [hstated] at h
    obtain ⟨calls, hcalls, h⟩ := bind_eq_ok.mp h
    cases h
    obtain ⟨rfl, hholds⟩ := Option.filter_eq_some_iff.mp hstated
    refine AddsNode.call hfunction (fun g => ?_) hmakes hstarts hcalls
    rw [hrefers, Option.some.injEq]
    refine ⟨fun hg => hg.1.symm, ?_⟩
    rintro rfl
    exact ⟨rfl, hholds⟩

theorem addsNode_alloc (hkind : n.kind = "ObjCMessageExpr") (hfunction : function.holds = true)
    (halloc : n.selector = "alloc" ∧ n.receiverKind = "class")
    (h : found.addMessage function n = .ok found') : AddsNode function n found found' := by
  have hstarts := not_startsThread (n := n) (by rw [hkind]; decide)
  have hrefers : ∀ g, ¬ RefersTo n g := by
    intro g hg
    cases hg with
    | call hcall => simp [hkind] at hcall
    | send _ hreceiver => simp [halloc.2] at hreceiver
  rw [Analysis.addMessage, if_pos (by simp [halloc])] at h
  obtain ⟨type, htype, h⟩ := bind_eq_ok.mp h
  have hmakes : ∀ cls, Makes n cls ↔ type.qual.getD "" = cls ∧ cls.holds = true := by
    intro cls
    refine ⟨fun hcls => ?_, fun hcls => ⟨hkind, halloc.1, halloc.2, ⟨type, htype, hcls.1⟩, hcls.2⟩⟩
    obtain ⟨type', htype', hqual⟩ := hcls.type
    cases htype.symm.trans htype'
    exact ⟨hqual, hcls.holds⟩
  dsimp only at h
  split at h
  · next hholds =>
    obtain ⟨allocs, hallocs, h⟩ := bind_eq_ok.mp h
    cases h
    refine AddsNode.alloc hfunction hrefers (fun cls => ?_) hstarts hallocs
    rw [hmakes]
    refine ⟨fun hcls => hcls.1.symm, ?_⟩
    rintro rfl
    exact ⟨rfl, hholds⟩
  · next hholds =>
    cases h
    refine AddsNode.none (fun _ => hrefers) (fun _ cls hcls => ?_) hstarts found
    obtain ⟨rfl, hcls⟩ := (hmakes cls).mp hcls
    exact hholds hcls

theorem addsNode_send (hkind : n.kind = "ObjCMessageExpr") (hfunction : function.holds = true)
    (hreceiver : n.receiverKind = "instance") (hselector : n.selector.holds = true)
    (h : found.addMessage function n = .ok found') : AddsNode function n found found' := by
  have hstarts := not_startsThread (n := n) (by rw [hkind]; decide)
  have hmakes : ∀ cls, ¬ Makes n cls := by
    intro cls hcls
    have hclass := hcls.receiver
    simp [hreceiver] at hclass
  rw [Analysis.addMessage, if_neg (by simp [hreceiver]), if_pos (by simp [hreceiver, hselector])] at h
  cases hinner : n.inner with
  | nil =>
    rw [hinner] at h
    cases h
    refine AddsNode.none (fun _ g hg => ?_) (fun _ => hmakes) hstarts found
    cases hg with
    | call hcall => simp [hkind] at hcall
    | send _ _ _ hcons => simp [hinner] at hcons
  | cons receiver rest =>
    rw [hinner] at h
    simp only [bind_eq_ok] at h
    obtain ⟨_, hcheck, json, hjson, type, htype, h⟩ := h
    obtain ⟨-, heq⟩ := Node.check_eq_ok.mp hcheck
    rw [heq] at hjson
    have hjson : receiver.qualType = .ok (.text type) := hjson.trans (by rw [textOr_eq_ok htype])
    have hrefers : ∀ g, RefersTo n g ↔ ∃ cls, classOfType type = some cls ∧
        g = .text s!"{cls}.{n.selector}" := by
      intro g
      constructor
      · intro hg
        cases hg with
        | call hcall => simp [hkind] at hcall
        | send _ _ _ hcons htype hcls =>
          cases hinner.symm.trans hcons
          cases hjson.symm.trans htype
          exact ⟨_, hcls, rfl⟩
      · rintro ⟨cls, hcls, rfl⟩
        exact .send hkind hreceiver hselector hinner hjson hcls
    cases hcls : classOfType type with
    | none =>
      rw [hcls] at h
      cases h
      refine AddsNode.none (fun _ g hg => ?_) (fun _ => hmakes) hstarts found
      obtain ⟨cls, hsome, -⟩ := (hrefers g).mp hg
      rw [hcls] at hsome
      cases hsome
    | some cls =>
      rw [hcls] at h
      obtain ⟨calls, hcalls, h⟩ := bind_eq_ok.mp h
      cases h
      refine AddsNode.call hfunction (fun g => ?_) hmakes hstarts hcalls
      simp [hrefers, hcls]

theorem addsNode_addMessage (hkind : n.kind = "ObjCMessageExpr") (hfunction : function.holds = true)
    (h : found.addMessage function n = .ok found') : AddsNode function n found found' := by
  by_cases halloc : n.selector = "alloc" ∧ n.receiverKind = "class"
  · exact addsNode_alloc hkind hfunction halloc h
  by_cases hsend : n.receiverKind = "instance" ∧ n.selector.holds = true
  · exact addsNode_send hkind hfunction hsend.1 hsend.2 h
  -- any other message, one to a class or to `super`, leaves no trace
  rw [Analysis.addMessage, if_neg (by simpa using halloc), if_neg (by simpa using hsend)] at h
  cases h
  refine AddsNode.none (fun _ g hg => ?_) (fun _ cls hcls => halloc ⟨hcls.selector, hcls.receiver⟩)
    (not_startsThread (by rw [hkind]; decide)) found
  cases hg with
  | call hcall => simp [hkind] at hcall
  | send _ hreceiver hselector => exact hsend ⟨hreceiver, hselector⟩

theorem addsNode_expression (hstarts : ∀ t, ¬ StartsThread n t)
    (h : (if n.kind = "ObjCMessageExpr" && function.holds then found.addMessage function n
      else if n.kind = "CallExpr" && function.holds then found.addCall function n
      else pure found) = Except.ok found') : AddsNode function n found found' := by
  split at h
  · next hmessage =>
    rw [Bool.and_eq_true, decide_eq_true_eq] at hmessage
    exact addsNode_addMessage hmessage.1 hmessage.2 h
  next hmessage =>
  split at h
  · next hcall =>
    rw [Bool.and_eq_true, decide_eq_true_eq] at hcall
    exact addsNode_addCall hcall.1 hcall.2 h
  · next hcall =>
    cases h
    have hkinds : function.holds = true → n.kind ≠ "ObjCMessageExpr" ∧ n.kind ≠ "CallExpr" :=
      fun hholds => ⟨by simpa [hholds] using hmessage, by simpa [hholds] using hcall⟩
    exact AddsNode.none (fun hholds => not_refersTo (hkinds hholds).1 (hkinds hholds).2)
      (fun hholds => not_makes (hkinds hholds).1) hstarts found

theorem addsNode_thread (hfunction : isFunction n = true) (hentry : isThreadEntry n = .ok true) :
    AddsNode function n found { found with threads := addNew found.threads n.name } := by
  have hkind : n.kind = "FunctionDecl" := by
    rw [isFunction, Bool.and_eq_true, beq_iff_eq] at hfunction
    exact hfunction.1
  refine ⟨fun f g => ?_, fun f cls => ?_, fun t => ?_, fun hcalls hallocs => ⟨hcalls, hallocs⟩⟩
  · simp [not_refersTo (n := n) (by rw [hkind]; decide) (by rw [hkind]; decide)]
  · simp [not_makes (n := n) (by rw [hkind]; decide)]
  · rw [mem_addNew]
    refine or_congr_right ⟨?_, ?_⟩
    · rintro rfl
      exact ⟨function, n, ⟨rfl, rfl⟩, hfunction, hentry, rfl⟩
    · rintro ⟨_, _, ⟨rfl, rfl⟩, hstarts⟩
      exact hstarts.name.symm

theorem addsNode_addNode (h : found.addNode function n = .ok found') :
    AddsNode function n found found' := by
  rw [Analysis.addNode] at h
  split at h
  · next hfunction =>
    obtain ⟨isEntry, hentry, h⟩ := bind_eq_ok.mp h
    cases isEntry with
    | true =>
      obtain ⟨key, hkey, h⟩ := bind_eq_ok.mp h
      cases h
      rw [asKey_eq_ok hkey]
      exact addsNode_thread hfunction hentry
    | false =>
      refine addsNode_expression (fun t ht => ?_) h
      cases hentry.symm.trans ht.isEntry
  · next hfunction =>
    exact addsNode_expression (fun t ht => hfunction ht.isFunction) h

def implementationOf (cls : Name) (n : Node) : Name :=
  if n.kind = "ObjCImplementationDecl" then n.name else cls

/-- A node occurs in a tree, inside a function. The tree itself lies inside `function` and the
implementation of `cls`. -/
inductive Occurs : (function cls : Name) → Node → Name → Node → Prop
  | self {function cls : Name} {n : Node} :
      Occurs function cls n (functionOf function (implementationOf cls n) n) n
  | child {function cls f : Name} {n m k : Node} : m ∈ n.inner →
      Occurs (functionOf function (implementationOf cls n) n) (implementationOf cls n) m f k →
      Occurs function cls n f k

theorem Adds.refl (found : Analysis) : Adds (fun _ _ => False) found found :=
  ⟨fun _ _ => by simp, fun _ _ => by simp, fun _ => by simp, fun hcalls hallocs => ⟨hcalls, hallocs⟩⟩

theorem Adds.trans (h : Adds nodes found found') (h' : Adds nodes' found' found'')
    (hboth : ∀ f n, both f n ↔ nodes f n ∨ nodes' f n) : Adds both found found'' where
  calls f g := by
    simp only [h'.calls, h.calls, hboth, or_and_right, exists_or, or_assoc]
  allocs f cls := by
    simp only [h'.allocs, h.allocs, hboth, or_and_right, exists_or, or_assoc]
  threads t := by
    simp only [h'.threads, h.threads, hboth, or_and_right, exists_or, or_assoc]
  positive hcalls hallocs := by
    obtain ⟨hcalls, hallocs⟩ := h.positive hcalls hallocs
    exact h'.positive hcalls hallocs

mutual

theorem adds_analyzeNode : (n : Node) →
    analyzeNode function cls found n = .ok found' → Adds (Occurs function cls n) found found'
  | .mk a ns, h => by
    rw [analyzeNode] at h
    split at h
    · cases h
    obtain ⟨found₁, hnode, h⟩ := bind_eq_ok.mp h
    obtain ⟨_, -, h⟩ := bind_eq_ok.mp h
    refine (addsNode_addNode hnode).trans (adds_analyzeNodes ns h) fun f k => ⟨fun hoccurs => ?_, ?_⟩
    · cases hoccurs with
      | self => exact .inl ⟨rfl, rfl⟩
      | child hm hoccurs => exact .inr ⟨_, hm, hoccurs⟩
    · rintro (⟨rfl, rfl⟩ | ⟨m, hm, hoccurs⟩)
      · exact .self
      · exact .child hm hoccurs

theorem adds_analyzeNodes : (ns : List Node) →
    analyzeNodes function cls found ns = .ok found' →
      Adds (fun f k => ∃ m ∈ ns, Occurs function cls m f k) found found'
  | [], h => by
    cases h
    exact (Adds.refl found).trans (Adds.refl found) fun f k => by simp
  | n :: ns, h => by
    rw [analyzeNodes] at h
    obtain ⟨found₁, hnode, h⟩ := bind_eq_ok.mp h
    exact (adds_analyzeNode n hnode).trans (adds_analyzeNodes ns h) fun f k => by simp

end

def InFunction (roots : List Node) (f : Name) (n : Node) : Prop :=
  ∃ root ∈ roots, Occurs "" "" root f n

def Calls (roots : List Node) (f g : Name) : Prop :=
  ∃ n, InFunction roots f n ∧ f.holds = true ∧ RefersTo n g

def Allocates (roots : List Node) (f cls : Name) : Prop :=
  ∃ n, InFunction roots f n ∧ f.holds = true ∧ Makes n cls

def IsThread (roots : List Node) (t : Name) : Prop :=
  ∃ f n, InFunction roots f n ∧ StartsThread n t

structure Describes (found : Analysis) (roots : List Node) : Prop where
  calls : ∀ f g, found.calls.Mentions f g ↔ Calls roots f g
  allocs : ∀ f cls, found.allocs.Mentions f cls ↔ Allocates roots f cls
  threads : ∀ t, t ∈ found.threads ↔ IsThread roots t
  positiveCalls : found.calls.Positive
  positiveAllocs : found.allocs.Positive

theorem describes_of_analyze (h : analyze roots = .ok found) : Describes found roots := by
  have hadds := adds_analyzeNodes roots h
  have hempty : ∀ f g, ¬ Counts.Mentions {} f g := by
    intro f g hg
    cases hg
  have hpositive : Counts.Positive {} := by
    intro f e he
    cases he
  obtain ⟨hcalls, hallocs⟩ := hadds.positive hpositive hpositive
  refine ⟨fun f g => ?_, fun f cls => ?_, fun t => ?_, hcalls, hallocs⟩
  · exact (hadds.calls f g).trans (or_iff_right (hempty f g))
  · exact (hadds.allocs f cls).trans (or_iff_right (hempty f cls))
  · exact (hadds.threads t).trans (or_iff_right (by simp))

end ObjcLowering.Pools
