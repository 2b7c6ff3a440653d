import ObjcLowering.Lowering.Functions
import ObjcLowering.Proofs.Hierarchy.Ancestry
import ObjcLowering.Proofs.Lowering.StoreOwnership
import ObjcLowering.Proofs.Lowering.Surroundings

/-!
Who owns the result of a message, as the caller and the callee decide it, and where the two agree.
-/

namespace ObjcLowering

namespace Lowering

open Ast List

variable {m : Module} {env : Env} {s : State} {e n : Node} {c d : ClassDecl} {method : Method}
  {body : Node}

def ownMethod? (c : ClassDecl) (selector : Name) (isClass : Bool) : Option Method :=
  c.methods.find? fun x => x.selector == selector && x.isClassMethod == isClass

inductive Answers (m : Module) (selector : Name) (isClass : Bool) :
    ClassDecl → ClassDecl → Method → Prop
  | own {d : ClassDecl} {method : Method} : ownMethod? d selector isClass = some method →
      Answers m selector isClass d d method
  | inherited {d up c : ClassDecl} {method : Method} : ownMethod? d selector isClass = none →
      m.parent? d = some up → Answers m selector isClass up c method →
      Answers m selector isClass d c method

/-- A message to the class `d`, or to an object of that class, reaches a method of the class `c`. -/
inductive Resolves (m : Module) (e : Node) : ClassDecl → ClassDecl → Method → Prop
  | toClass {type : TypeRef} {name : Name} {d c : ClassDecl} {method : Method} :
      e.receiverKind = "class" → e.attrs.classType.get = .ok type → type.qual = some name →
      m.class? name = some d → Answers m e.selector true d c method → Resolves m e d c method
  | toInstance {receiver : Node} {rest : List Node} {cls : String} {d c : ClassDecl}
      {method : Method} :
      e.receiverKind = "instance" → e.inner = receiver :: rest → staticClass receiver = .ok cls →
      cls ≠ "" → m.class? (.text cls) = some d → Answers m e.selector false d c method →
      Resolves m e d c method

def IsMade (e : Node) : Prop :=
  (e.unwrap transparentKinds).kind ∈ objectLiterals ∨
    (e.unwrap transparentKinds).kind = "ObjCMessageExpr" ∧ Makes (e.unwrap transparentKinds)

def ReturnsMadeAt (n : Node) : Prop := ∃ e rest, n.inner = e :: rest ∧ IsMade e

/-- The return statement hands a reference over: that of an object made on the spot, or that of a
variable which it would otherwise release. -/
inductive Transfers (s : State) (n : Node) : Prop
  | made : ReturnsMadeAt n → Transfers s n
  | spared {e : Node} {rest : List Node} {var : Option Name} {v : Name} : n.inner = e :: rest →
      returnedVar? e = .ok var → v ∈ s.ownedAtReturn none → v ∉ s.ownedAtReturn var →
      Transfers s n

def Env.inMethod (env : Env) (c : ClassDecl) (method : Method) : Env :=
  { env with cls := c, method := some method }

/-- A return statement comes up in the state `s`, when the lowering of the method starts from `s₀`. -/
def ReturnsAt (env : Env) (method : Method) (body : Node) (s₀ : State) (n : Node) (s : State) : Prop :=
  n.kind = "ReturnStmt" ∧ ∃ k depth around,
    Reaches env (.start body.depth (objectParams method.params) body s₀.atMethod)
      ⟨k, .form depth n, s, around⟩

def TransfersAll (env : Env) (method : Method) (body : Node) (s₀ : State) : Prop :=
  ∀ n s, ReturnsAt env method body s₀ n s → Transfers s n

/-- The method returns an object, and all return statements below its body, of which there is one,
return one that is made on the spot. -/
def ReturnsMade (x : Method) : Prop :=
  x.returnType.isObject = true ∧ ∃ body, x.body = some body ∧
    (∃ n ∈ body.preorder, n.kind = "ReturnStmt") ∧
    ∀ n ∈ body.preorder, n.kind = "ReturnStmt" → ReturnsMadeAt n

theorem isOwningExpr_eq (h : isOwningExpr e = .ok b) : b = true ↔ IsMade e := by
  simp only [isOwningExpr] at h
  split at h
  · next hliteral =>
    cases h
    exact iff_of_true rfl (.inl (contains_iff_mem.mp hliteral))
  · next hliteral =>
    have hnot := mt contains_iff_mem.mpr hliteral
    split at h
    · next hmessage =>
      rw [isMakingSend_eq h]
      exact ⟨fun hmakes => .inr ⟨hmessage, hmakes⟩, fun hmade => (hmade.resolve_left hnot).2⟩
    · next hmessage =>
      cases h
      exact iff_of_false nofun fun hmade => hmessage (hmade.resolve_left hnot).1

theorem isMade_headD (h : e.kind = "ExprWithCleanups") : IsMade (e.inner.headD e) ↔ IsMade e := by
  cases hinner : e.inner with
  | nil => rfl
  | cons c rest =>
    have hunwrap := Node.unwrap_of_mem (show e.kind ∈ transparentKinds by rw [h]; decide) hinner
    rw [IsMade, IsMade, hunwrap]
    rfl

theorem returnsOwnedAt_eq (h : returnsOwnedAt n = .ok b) : b = true ↔ ReturnsMadeAt n := by
  unfold returnsOwnedAt returnedExpr? at h
  cases hinner : n.inner with
  | nil =>
    rw [hinner] at h
    cases h
    refine iff_of_false nofun ?_
    rintro ⟨e, rest, he, -⟩
    rw [hinner] at he
    cases he
  | cons e rest =>
    rw [hinner] at h
    have hiff : b = true ↔ IsMade e := by
      by_cases hkind : e.kind = "ExprWithCleanups"
      · rw [← isMade_headD hkind]
        simp only [head?_cons, Option.map_some, hkind, if_true] at h
        exact isOwningExpr_eq h
      · simp only [head?_cons, Option.map_some, hkind, if_false] at h
        exact isOwningExpr_eq h
    rw [hiff]
    constructor
    · exact fun hmade => ⟨e, rest, hinner, hmade⟩
    · rintro ⟨e', rest', he, hmade⟩
      rw [hinner] at he
      cases he
      exact hmade

theorem allM_eq_ok {f : α → Except Fault Bool} {P : α → Prop} {xs : List α}
    (hf : ∀ x b, f x = .ok b → (b = true ↔ P x)) (h : xs.allM f = .ok b) :
    b = true ↔ ∀ x ∈ xs, P x := by
  induction xs with
  | nil =>
    cases h
    simp
  | cons x xs ih =>
    obtain ⟨first, hfirst, hrest⟩ := bind_eq_ok.mp h
    rw [forall_mem_cons, ← hf x first hfirst]
    cases first with
    | true => rw [ih hrest]; simp
    | false => cases hrest; simp

theorem returnsOwned_eq (h : returnsOwned body = .ok b) :
    b = true ↔ (∃ n ∈ body.preorder, n.kind = "ReturnStmt") ∧
      ∀ n ∈ body.preorder, n.kind = "ReturnStmt" → ReturnsMadeAt n := by
  simp only [returnsOwned] at h
  split at h
  · next hempty =>
    cases h
    refine iff_of_false nofun ?_
    rintro ⟨⟨n, hn, hkind⟩, -⟩
    have hmem : n ∈ body.preorder.filter fun n => n.kind = "ReturnStmt" := by simp [hn, hkind]
    rw [isEmpty_iff.mp hempty] at hmem
    cases hmem
  · next hsome =>
    rw [allM_eq_ok (fun _ _ => returnsOwnedAt_eq) h]
    obtain ⟨n, hn⟩ := exists_mem_of_ne_nil _ (mt isEmpty_iff.mpr hsome)
    have hn' : n ∈ body.preorder ∧ n.kind = "ReturnStmt" := by simpa using hn
    constructor
    · intro hall
      exact ⟨⟨n, hn'⟩, fun x hx hkind => hall x (by simp [hx, hkind])⟩
    · rintro ⟨-, hall⟩ x hx
      have hx' : x ∈ body.preorder ∧ x.kind = "ReturnStmt" := by simpa using hx
      exact hall x hx'.1 hx'.2

theorem isOwningMethod_eq (hselector : method.selector = .text selector)
    (hmaking : isMakingSelector selector = false) (h : isOwningMethod method = .ok b) :
    b = true ↔ ReturnsMade method := by
  unfold isOwningMethod at h
  obtain ⟨type, htype, h⟩ := bind_eq_ok.mp h
  rw [checked_eq_ok htype] at h
  split at h
  · next hobject =>
    cases h
    refine iff_of_false nofun fun hmade => ?_
    rw [hmade.1] at hobject
    cases hobject
  · next hobject =>
    have hobject' : method.returnType.isObject = true := by simpa using hobject
    cases hbody : method.body with
    | none =>
      rw [hbody] at h
      cases h
      refine iff_of_false nofun ?_
      rintro ⟨-, body, hsome, -⟩
      rw [hbody] at hsome
      cases hsome
    | some body =>
      rw [hbody] at h
      obtain ⟨text, htext, h⟩ := bind_eq_ok.mp h
      rw [hselector] at htext
      cases htext
      rw [hmaking] at h
      rw [returnsOwned_eq h]
      constructor
      · exact fun hreturns => ⟨hobject', body, hbody, hreturns⟩
      · rintro ⟨-, body', hsome, hreturns⟩
        rw [hbody] at hsome
        cases hsome
        exact hreturns

theorem exists_eq_ok_of_filterAuxM {f : α → Except Fault Bool} {xs acc ys : List α}
    (h : xs.filterAuxM f acc = .ok ys) : ∀ x ∈ xs, ∃ b, f x = .ok b := by
  induction xs generalizing acc with
  | nil => simp
  | cons x xs ih =>
    obtain ⟨b, hb, hrest⟩ := bind_eq_ok.mp h
    exact forall_mem_cons.mpr ⟨⟨b, hb⟩, ih hrest⟩

theorem exists_eq_ok_of_mapM {f : α → Except Fault β} {xs : List α}
    (h : xs.mapM f = .ok ys) : ∀ x ∈ xs, ∃ y, f x = .ok y := by
  induction xs generalizing ys with
  | nil => simp
  | cons x xs ih =>
    obtain ⟨y, hy, zs, hzs, -⟩ := mapM_eq_ok_cons.mp h
    exact forall_mem_cons.mpr ⟨⟨y, hy⟩, ih hzs⟩

theorem mem_flatten_of_mapM {f : α → Except Fault (List β)} {xs : List α} {P : α → β → Prop}
    (hf : ∀ x ∈ xs, ∀ ys, f x = .ok ys → (y ∈ ys ↔ P x y)) (h : xs.mapM f = .ok yss) :
    y ∈ yss.flatten ↔ ∃ x ∈ xs, P x y := by
  induction xs generalizing yss with
  | nil =>
    cases h
    simp
  | cons x xs ih =>
    obtain ⟨ys, hys, zss, hzss, rfl⟩ := mapM_eq_ok_cons.mp h
    rw [flatten_cons, mem_append, hf x (.head _) ys hys,
      ih (fun x hx => hf x (.tail _ hx)) hzss, exists_mem_cons_iff]

theorem mem_owningMethods {cls selector : Name} (h : owningMethods m = .ok owning) :
    (cls, selector) ∈ owning ↔ ∃ c ∈ m.classes.values, c.name = cls ∧
      ∃ x ∈ c.methods, x.selector = selector ∧ isOwningMethod x = .ok true := by
  obtain ⟨pairs, hpairs, h⟩ := bind_eq_ok.mp h
  rw [← pure_eq_ok.mp h, distinct, mem_distinctFrom]
  simp only [not_mem_nil, not_false_eq_true, and_true]
  refine mem_flatten_of_mapM (P := fun c p => c.name = p.1 ∧
    ∃ x ∈ c.methods, x.selector = p.2 ∧ isOwningMethod x = .ok true) (fun c _ ys hys => ?_) hpairs
  obtain ⟨found, hfound, hys⟩ := bind_eq_ok.mp hys
  rw [← pure_eq_ok.mp hys, mem_map]
  simp only [mem_filterM hfound, Prod.mk.injEq]
  constructor
  · rintro ⟨x, ⟨hx, howning⟩, hname, hselector⟩
    exact ⟨hname, x, hx, hselector, howning⟩
  · rintro ⟨hname, x, hx, hselector, howning⟩
    exact ⟨x, ⟨hx, howning⟩, hname, hselector⟩

theorem exists_isOwningMethod (h : owningMethods m = .ok owning)
    (hc : c ∈ m.classes.values) {x : Method} (hx : x ∈ c.methods) :
    ∃ b, isOwningMethod x = .ok b := by
  obtain ⟨pairs, hpairs, -⟩ := bind_eq_ok.mp h
  obtain ⟨ys, hys⟩ := exists_eq_ok_of_mapM hpairs c hc
  obtain ⟨found, hfound, -⟩ := bind_eq_ok.mp hys
  obtain ⟨zs, hzs, -⟩ := bind_eq_ok.mp hfound
  exact exists_eq_ok_of_filterAuxM hzs x hx

def Task.nodes : Task → List Node
  | .stmts _ ns => ns
  | .stmt _ n => [n]
  | .form _ n => [n]
  | .branch _ n => [n]
  | .scope _ n => [n]
  | .braced _ n => [n]

theorem preorderList_subset (h : ns ⊆ Node.preorderList ms) :
    Node.preorderList ns ⊆ Node.preorderList ms := by
  induction ns with
  | nil => exact nil_subset _
  | cons n ns ih =>
    obtain ⟨hn, hns⟩ := cons_subset.mp h
    rw [Node.preorderList]
    exact append_subset.mpr ⟨Node.preorder_subset_of_preorderList ms hn, ih hns⟩

theorem subset_preorderList (ns : List Node) : ns ⊆ Node.preorderList ns := by
  intro n hn
  exact Node.preorder_subset_of_mem hn (Node.mem_preorder_self n)

theorem mem_preorderList_of_inner {n c : Node} (h : c ∈ n.inner) :
    [c] ⊆ Node.preorderList [n] := by
  rw [Node.preorderList, Node.preorderList, append_nil]
  exact cons_subset.mpr ⟨Node.mem_preorder_of_inner h, nil_subset _⟩

theorem inner_subset_preorderList (h : ns ⊆ n.inner) : ns ⊆ Node.preorderList [n] := by
  rw [Node.preorderList, Node.preorderList, append_nil]
  exact fun c hc => Node.mem_preorder_of_inner (h hc)

theorem innerOf_subset_preorderList {n c : Node} (h : c ∈ n.inner) :
    c.inner ⊆ Node.preorderList [n] := by
  rw [Node.preorderList, Node.preorderList, append_nil]
  exact Node.inner_subset_preorder (Node.mem_preorder_of_inner h)

theorem ComesToBody.mem_inner (h : ComesToBody env k depth n s body t) : body ∈ n.inner := by
  cases h with
  | whileLoop _ hinner => simp [hinner]
  | doLoop _ hinner => simp [hinner]
  | forLoop _ _ _ hbody =>
    split at hbody
    · exact mem_of_getElem? hbody
    · exact mem_of_getLast? hbody

theorem Step.nodes_subset {p q : Moment} (h : Step env p q) :
    q.task.nodes ⊆ Node.preorderList p.task.nodes := by
  cases h with
  | stmts _ =>
    apply Subset.trans _ (subset_preorderList _)
    simp [Task.nodes]
  | stmt _ => exact subset_preorderList _
  | cleanups _ hinner => exact mem_preorderList_of_inner (by simp [hinner])
  | block _ => exact subset_preorderList _
  | pool _ hinner _ => exact mem_preorderList_of_inner (by simp [hinner])
  | scope => exact inner_subset_preorderList (Subset.refl _)
  | braces _ => exact subset_preorderList _
  | single _ => exact subset_preorderList _
  | lock _ hinner _ _ => exact innerOf_subset_preorderList (by simp [hinner])
  | branch _ => exact subset_preorderList _
  | yes hinner _ _ => exact mem_preorderList_of_inner (by simp [hinner])
  | no hinner _ _ _ _ _ => exact mem_preorderList_of_inner (by simp [hinner])
  | chained hinner _ _ _ _ _ => exact mem_preorderList_of_inner (by simp [hinner])
  | loop hbody => exact mem_preorderList_of_inner hbody.mem_inner
  | forIn _ hinner _ _ _ => exact mem_preorderList_of_inner (by simp [hinner])
  | switch _ hinner _ _ => exact innerOf_subset_preorderList (by simp [hinner])
  | switchSingle _ hinner _ _ => exact mem_preorderList_of_inner (by simp [hinner])
  | case _ hinner _ =>
    apply inner_subset_preorderList
    rw [hinner]
    exact subset_cons_self _ _
  | default _ => exact inner_subset_preorderList (Subset.refl _)

theorem Reaches.nodes_subset (h : Reaches env p q) : q.task.nodes ⊆ Node.preorderList p.task.nodes := by
  induction h with
  | refl => exact subset_preorderList _
  | tail _ hstep ih => exact Subset.trans hstep.nodes_subset (preorderList_subset ih)

theorem ReturnsAt.mem_preorder (h : ReturnsAt env method body s₀ n s) : n ∈ body.preorder := by
  obtain ⟨-, k, depth, around, hreaches⟩ := h
  have hmem := hreaches.nodes_subset (mem_singleton_self n)
  cases body with
  | mk a ns =>
    rw [Node.preorder]
    exact .tail _ hmem

theorem ReturnsMade.transfersAll (h : ReturnsMade method) (hbody : method.body = some body) :
    TransfersAll env method body s₀ := by
  obtain ⟨-, body', hbody', -, hall⟩ := h
  rw [hbody] at hbody'
  cases hbody'
  intro n s hreturns
  exact .made (hall n hreturns.mem_preorder hreturns.1)

def HasMaking (d : ClassDecl) (selector : Name) : Prop :=
  ∃ x ∈ d.methods, x.selector = selector ∧ ReturnsMade x

/-- How caller and callee agree on a message: it makes an object by convention, or by the analysis of a
method of the receiver's own class, and all returns hand a reference over; or neither, and some
return hands none over. -/
inductive Accounted (env : Env) (e : Node) (d : ClassDecl) (method : Method) (body : Node)
    (s₀ : State) : Prop
  | convention : Makes e → TransfersAll env method body s₀ → Accounted env e d method body s₀
  | analysis : HasMaking d e.selector → TransfersAll env method body s₀ →
      Accounted env e d method body s₀
  | lent {n : Node} {s : State} : ¬ Makes e → ¬ HasMaking d e.selector →
      ReturnsAt env method body s₀ n s → ¬ Transfers s n → Accounted env e d method body s₀

theorem mem_owning_iff (hm : env.module.Named) (howning : owningMethods env.module = .ok env.owning)
    (hd : env.module.class? cls = some d) (hmaking : isMakingSelector selector = false) :
    (cls, .text selector) ∈ env.owning ↔ HasMaking d (.text selector) := by
  rw [mem_owningMethods howning]
  constructor
  · rintro ⟨c, hc, rfl, x, hx, hselector, hmethod⟩
    rw [hm.class?_name hc] at hd
    cases hd
    exact ⟨x, hx, hselector, (isOwningMethod_eq hselector hmaking hmethod).mp rfl⟩
  · rintro ⟨x, hx, hselector, hmade⟩
    have hmem := Module.mem_values_of_class? hd
    obtain ⟨b, hb⟩ := exists_isOwningMethod howning hmem hx
    have htrue := (isOwningMethod_eq hselector hmaking hb).mpr hmade
    exact ⟨d, hmem, hm.name_of_class? hd, x, hx, hselector, htrue ▸ hb⟩

theorem exists_isBorrowed (hkind : e.kind = "ObjCMessageExpr") (hselector : e.selector.isText = true)
    (hsend : Resolves env.module e d c method) : ∃ b, isBorrowed env.owning e = .ok b := by
  have hunwrap : e.unwrap transparentKinds = e :=
    Node.unwrap_of_notMem (by rw [hkind]; decide)
  obtain ⟨making, hmaking⟩ : ∃ making, isMakingSend e = .ok making := by
    unfold isMakingSend
    cases htext : e.selector <;> rw [htext] at hselector <;> first | exact ⟨_, rfl⟩ | cases hselector
  unfold isBorrowed
  simp only [hunwrap, hkind, if_true, hmaking]
  cases making with
  | true => exact ⟨false, rfl⟩
  | false =>
    cases hsend with
    | toClass hreceiver => exact ⟨true, by rw [hreceiver]; rfl⟩
    | toInstance hreceiver hinner hstatic =>
      obtain ⟨raw, hraw, hcls⟩ := bind_eq_ok.mp hstatic
      obtain ⟨found, hfound⟩ : ∃ found, sendsToOwning env.owning e = .ok found := by
        rw [sendsToOwning, hinner]
        exact ⟨_, bind_eq_ok.mpr ⟨raw, hraw, bind_eq_ok.mpr ⟨_, hcls, rfl⟩⟩⟩
      refine ⟨!found, ?_⟩
      rw [hreceiver, hfound]
      rfl

theorem recognized_iff (hm : env.module.Named)
    (howning : owningMethods env.module = .ok env.owning) (hselector : e.selector.isText = true)
    (hsend : Resolves env.module e d c method) (hmakes : ¬ Makes e) :
    Recognized env e ↔ HasMaking d e.selector := by
  cases hsend with
  | toClass hreceiver => exact absurd (.inr hreceiver) hmakes
  | @toInstance receiver rest cls _ _ _ hreceiver hinner hstatic hne hd =>
    cases htext : e.selector with
    | text selector =>
      have hmaking : isMakingSelector selector = false := by
        rw [Bool.eq_false_iff]
        exact fun h => hmakes (.inl ⟨selector, htext, h⟩)
      rw [← mem_owning_iff hm howning hd hmaking]
      constructor
      · rintro ⟨-, receiver', rest', cls', hinner', hstatic', -, hmem⟩
        rw [hinner] at hinner'
        cases hinner'
        rw [hstatic] at hstatic'
        cases hstatic'
        rwa [htext] at hmem
      · intro hmem
        exact ⟨hreceiver, receiver, rest, cls, hinner, hstatic, hne, by rwa [htext]⟩
    | _ =>
      rw [htext] at hselector
      cases hselector

theorem isBorrowed_eq_false_iff (hm : env.module.Named)
    (howning : owningMethods env.module = .ok env.owning) (hkind : e.kind = "ObjCMessageExpr")
    (hselector : e.selector.isText = true) (hsend : Resolves env.module e d c method) :
    isBorrowed env.owning e = .ok false ↔ Makes e ∨ HasMaking d e.selector := by
  have hunwrap : e.unwrap transparentKinds = e :=
    Node.unwrap_of_notMem (by rw [hkind]; decide)
  obtain ⟨b, hb⟩ := exists_isBorrowed hkind hselector hsend
  have hiff := isBorrowed_of_message (by rw [hunwrap, hkind]) hb
  rw [hunwrap] at hiff
  have hfalse : isBorrowed env.owning e = .ok false ↔ ¬ b = true := by simp [hb]
  rw [hfalse, hiff, not_and_or, not_not, not_not]
  by_cases hmakes : Makes e
  · exact iff_of_true (.inl hmakes) (.inl hmakes)
  · rw [recognized_iff hm howning hselector hsend hmakes]

theorem not_transfersAll_iff :
    ¬ TransfersAll env method body s₀ ↔ ∃ n s, ReturnsAt env method body s₀ n s ∧ ¬ Transfers s n := by
  simp [TransfersAll]

/-- Caller and callee agree on the ownership of a result exactly where the message is accounted for;
and what the analysis finds about the method itself is right. -/
theorem callers_account_for_returns (env : Env) (e : Node) (d c : ClassDecl) (method : Method)
    (body : Node) (s₀ : State) (hm : env.module.Named)
    (howning : owningMethods env.module = .ok env.owning) (hkind : e.kind = "ObjCMessageExpr")
    (hselector : e.selector.isText = true) (hsend : Resolves env.module e d c method)
    (hbody : method.body = some body) :
    (∃ b, isBorrowed env.owning e = .ok b) ∧
    ((isBorrowed env.owning e = .ok false ↔ TransfersAll (env.inMethod c method) method body s₀) ↔
      Accounted (env.inMethod c method) e d method body s₀) ∧
    (ReturnsMade method → TransfersAll (env.inMethod c method) method body s₀) := by
  refine ⟨exists_isBorrowed hkind hselector hsend, ?_, fun h => h.transfersAll hbody⟩
  rw [isBorrowed_eq_false_iff hm howning hkind hselector hsend]
  constructor
  · intro hagree
    by_cases hall : TransfersAll (env.inMethod c method) method body s₀
    · exact (hagree.mpr hall).elim (fun h => .convention h hall) fun h => .analysis h hall
    · obtain ⟨hmakes, hmaking⟩ := not_or.mp (mt hagree.mp hall)
      obtain ⟨n, s, hreturns, hnot⟩ := not_transfersAll_iff.mp hall
      exact .lent hmakes hmaking hreturns hnot
  · rintro (⟨hmakes, hall⟩ | ⟨hmaking, hall⟩ | ⟨hmakes, hmaking, hreturns, hnot⟩)
    · exact iff_of_true (.inl hmakes) hall
    · exact iff_of_true (.inr hmaking) hall
    · exact iff_of_false (not_or.mpr ⟨hmakes, hmaking⟩) fun hall => hnot (hall _ _ hreturns)

theorem Step.of_stmts_single (h : Step env ⟨k, .stmts depth [n], s, around⟩ q) :
    q = ⟨k, .stmt depth n, s, extend [] around⟩ := by
  generalize hp : (⟨k, .stmts depth [n], s, around⟩ : Moment) = p at h
  cases h with
  | @stmts _ _ before _ _ _ _ _ _ hpasses =>
    cases before with
    | nil =>
      cases hp
      cases hpasses
      rfl
    | cons _ before =>
      cases before <;> cases hp
  | _ => cases hp

theorem Step.of_stmt (h : Step env ⟨k, .stmt depth n, s, around⟩ q) : ∃ j t,
      Yields (copyStmt? (level j).expr n) env s none t ∧ q = ⟨j, .form depth n, t, around⟩ := by
  generalize hp : (⟨k, .stmt depth n, s, around⟩ : Moment) = p at h
  cases h with
  | stmt hcopy =>
    cases hp
    exact ⟨_, _, hcopy, rfl⟩
  | _ => cases hp

theorem Step.not_of_return (hkind : n.kind = "ReturnStmt") : ¬ Step env ⟨k, .form depth n, s, around⟩ q := by
  intro h
  cases h with
  | loop hbody => cases hbody <;> simp_all
  | _ => simp_all

theorem returnsAt_single_iff {ret : Node} (hinner : body.inner = [ret])
    (hkind : ret.kind = "ReturnStmt") (huse : macroUse? ret = .ok none) :
    ReturnsAt env method body s₀ n s ↔
      n = ret ∧ s = s₀.atMethod.entered (objectParams method.params) := by
  have hcopy {k : Nat} {s t : State} :
      Yields (copyStmt? (level k).expr ret) env s none t ↔ t = s := by
    simp [copyStmt?, huse]
  constructor
  · rintro ⟨-, k, depth, around, hreaches⟩
    rw [Moment.start, hinner] at hreaches
    obtain heq | ⟨q, hstep, hreaches⟩ := hreaches.cases_head
    · cases heq
    rw [hstep.of_stmts_single] at hreaches
    obtain heq | ⟨q, hstep, hreaches⟩ := hreaches.cases_head
    · cases heq
    obtain ⟨j, t, ht, rfl⟩ := hstep.of_stmt
    rw [hcopy] at ht
    subst ht
    obtain heq | ⟨q, hstep, -⟩ := hreaches.cases_head
    · cases heq
      exact ⟨rfl, rfl⟩
    · exact absurd hstep (Step.not_of_return hkind)
  · rintro ⟨rfl, rfl⟩
    cases body with
    | mk a ns =>
      cases hinner
      refine ⟨hkind, _, _, _, .head (@Step.stmts _ _ _ [] _ _ _ _ _ _ .nil) (.single (.stmt ?_))⟩
      exact hcopy.mpr rfl

def returnBody (e : Node) : Node := .bare "CompoundStmt" [.bare "ReturnStmt" [e]]

/-- `- (id)make { return @[]; }` -/
def makeMethod : Method :=
  { selector := "make", returnType := ⟨"id"⟩, body := some (returnBody (.bare "ObjCArrayLiteral" [])) }

/-- `- (id)same:(id)x { return x; }` -/
def sameMethod : Method :=
  { selector := "same:", returnType := ⟨"id"⟩, params := [{ name := "x", type := ⟨"id"⟩ }],
    body := some (returnBody (.varRef "x" "id")) }

/-- `+ (id)shared { return g; }` -/
def sharedMethod : Method :=
  { selector := "shared", returnType := ⟨"id"⟩, isClassMethod := true,
    body := some (returnBody (.varRef "g" "id")) }

def givingClass : ClassDecl := { name := "Foo", methods := [makeMethod, sameMethod, sharedMethod] }

def Env.giving : Env where
  cls := givingClass
  module := { classes := ⟨[("Foo", givingClass)]⟩ }
  root := "OZObject"
  owning := [("Foo", "make")]

theorem named_giving : Env.giving.module.Named where
  nodup := by simp [Env.giving, Table.names]
  name_eq := by simp [Env.giving, givingClass]
  isText := by simp [Env.giving]; rfl
  isText_superclass := by simp [Env.giving, givingClass]

def sendTo (selector : String) (args : List Node) : Node :=
  .mk { kind := "ObjCMessageExpr", selector := some (.text selector), receiverKind := some "instance" }
    (.varRef "f" "Foo *" :: args)

def sendToClass (selector : String) : Node :=
  .mk { kind := "ObjCMessageExpr", selector := some (.text selector), receiverKind := some "class"
        classType := .present { qual := some "Foo" } } []

theorem make_accounted :
    Resolves Env.giving.module (sendTo "make" []) givingClass givingClass makeMethod ∧
    isBorrowed Env.giving.owning (sendTo "make" []) = .ok false ∧
    TransfersAll (Env.giving.inMethod givingClass makeMethod) makeMethod
      (returnBody (.bare "ObjCArrayLiteral" [])) {} := by
  have hsend : Resolves Env.giving.module (sendTo "make" []) givingClass givingClass makeMethod :=
    .toInstance rfl rfl rfl (by decide) rfl (.own rfl)
  have hmade : ReturnsMade makeMethod := ⟨rfl, _, rfl, (@returnsOwned_eq _ true rfl).mp rfl⟩
  obtain ⟨-, hagree, hsound⟩ := callers_account_for_returns Env.giving (sendTo "make" []) givingClass
    givingClass makeMethod (returnBody (.bare "ObjCArrayLiteral" [])) {} named_giving rfl rfl rfl hsend rfl
  have hall := hsound hmade
  have hmaking : HasMaking givingClass "make" := ⟨makeMethod, .head _, rfl, hmade⟩
  exact ⟨hsend, (hagree.mpr (.analysis hmaking hall)).mpr hall, hall⟩

theorem results_unaccounted :
    (Resolves Env.giving.module (sendTo "same:" [.varRef "y" "id"]) givingClass givingClass
        sameMethod ∧
      isBorrowed Env.giving.owning (sendTo "same:" [.varRef "y" "id"]) = .ok true ∧
      TransfersAll (Env.giving.inMethod givingClass sameMethod) sameMethod
        (returnBody (.varRef "x" "id")) {}) ∧
    (Resolves Env.giving.module (sendToClass "shared") givingClass givingClass sharedMethod ∧
      isBorrowed Env.giving.owning (sendToClass "shared") = .ok false ∧
      ¬ TransfersAll (Env.giving.inMethod givingClass sharedMethod) sharedMethod
        (returnBody (.varRef "g" "id")) {}) := by
  refine ⟨⟨?_, rfl, ?_⟩, ?_, rfl, ?_⟩
  · exact .toInstance rfl rfl rfl (by decide) rfl (.own rfl)
  · intro n s hreturns
    obtain ⟨rfl, rfl⟩ := (returnsAt_single_iff rfl rfl rfl).mp hreturns
    have hvar : returnedVar? (.varRef "x" "id") = .ok (some "x") := rfl
    exact .spared (v := "x") rfl hvar (by decide) (by decide)
  · exact .toClass rfl rfl rfl rfl (.own rfl)
  · intro hall
    have hreturns := (@returnsAt_single_iff (Env.giving.inMethod givingClass sharedMethod) _ _ sharedMethod
      (returnBody (.varRef "g" "id")) {} _ rfl rfl rfl).mpr ⟨rfl, rfl⟩
    obtain ⟨_, _, he, hmade⟩ | ⟨he, hvar, hv, -⟩ := hall _ _ hreturns
    · cases he
      cases (@isOwningExpr_eq _ false rfl).mpr hmade
    · cases hv

end Lowering

end ObjcLowering
