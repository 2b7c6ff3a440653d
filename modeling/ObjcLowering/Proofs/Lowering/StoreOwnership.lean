import ObjcLowering.Proofs.Lowering.ReleaseOrder

/-! Ownership at stores. -/

namespace ObjcLowering.Code

/-- The code leaves a value in a place. A value that is declared goes by the name of its place. -/
inductive Stores (code : List Code) (place : String) : String → Prop
  | declared : .declare depth place text ∈ code → Stores code place place
  | assigned : .assign depth place v ∈ code → Stores code place v

end ObjcLowering.Code

namespace ObjcLowering.Lowering

open Ast List

def IsNil (e : Node) : Prop :=
  (e.unwrap transparentKinds).kind = "GNUNullExpr" ∨
    (e.unwrap transparentKinds).kind = "CXXNullPtrLiteralExpr" ∨
    (e.unwrap transparentKinds).kind = "IntegerLiteral" ∧
      (e.unwrap transparentKinds).attrs.value = some "0"

def staticClass (receiver : Node) : Except Fault String := do pointeeWord (← receiver.qualType)

inductive OwningSend (env : Env) (m : Node) : Prop
  | toInstance : m.receiverKind = "instance" → m.inner = receiver :: rest →
      staticClass receiver = .ok cls → cls ≠ "" →
      (definingClass env.module (.text cls) m.selector, m.selector) ∈ env.owning →
      OwningSend env m
  | toSuper : m.receiverKind = "super (instance)" → env.cls.superclass = some up →
      (definingClass env.module up m.selector, m.selector) ∈ env.owning → OwningSend env m

def Makes (m : Node) : Prop :=
  (∃ selector, m.selector = .text selector ∧ isMakingSelector selector = true) ∨
    m.receiverKind = "class"

inductive YieldsOwned (env : Env) (e : Node) : Prop
  | literal : (e.unwrap transparentKinds).kind ∈ objectLiterals → YieldsOwned env e
  | made : (e.unwrap transparentKinds).kind = "ObjCMessageExpr" →
      Makes (e.unwrap transparentKinds) → YieldsOwned env e
  | owning : (e.unwrap transparentKinds).kind = "ObjCMessageExpr" →
      OwningSend env (e.unwrap transparentKinds) → YieldsOwned env e

/-- A store that leads from `t` to `s'` takes a reference over: one that comes with the value, or
that of a variable which it marks as given away. -/
def TakesOver (env : Env) (t s' : State) (e : Node) : Prop :=
  YieldsOwned env e ∨ ∃ v, Denotes transparentKinds e v ∧ v ∉ t.consumed ∧ v ∈ s'.consumed

def Accounts (env : Env) (t s' : State) (e : Node) (v : String) (code : List Code) : Prop :=
  v ∈ Code.retained code ↔ ¬ TakesOver env t s' e ∧ ¬ IsNil e

inductive Site where
  | declaration | assignment | ivar

inductive Store (env : Env) (k depth : Nat) (s : State) (e : Node) :
    Site → String → State → State → List Code → Prop
  | declaration : s.scopes ≠ [] → isShared n = false → declaredType n = .ok type →
      isOwner n type = true → (initializer? n).filter (fun e => !e.isNull) = some e →
      Yields ((level k).expr e) env (s.declaring n type) text t →
      Yields (lowerVarDecl (level k).expr depth n) env s code s' →
      Store env k depth s e .declaration (declaredName n).plain t s' code
  | assignment {n : Node} : n.kind = "BinaryOperator" → n.opcode = "=" → n.inner = [lhs, e] →
      DenotesTracked s lhs var → Yields ((level k).expr e) env s text t →
      Yields (lowerStmtKind (level k) depth n) env s code s' →
      Store env k depth s e .assignment var.plain t s' code
  | ivar {n : Node} : n.kind = "BinaryOperator" → n.opcode = "=" → n.inner = [lhs, e] →
      strongIvar? env.cls lhs = .ok (some i) → Yields ((level k).expr e) env s text t →
      Yields (lowerStmtKind (level k) depth n) env s code s' →
      Store env k depth s e .ivar s!"self->{i}" t s' code

variable {env : Env} {s s' t : State} {depth k : Nat} {n e : Node} {code : List Code}
  {expr : Node → Lower String}

theorem kind_of_denotes (hkinds : kinds ⊆ transparentKinds)
    (h : Denotes kinds e v) : (e.unwrap transparentKinds).kind = "DeclRefExpr" := by
  obtain ⟨m, d, hwraps, hkind, -⟩ := h
  rw [(hwraps.mono hkinds).unwrap_eq (by rw [hkind]; decide), hkind]

theorem not_isNil_of_kind (h : (e.unwrap transparentKinds).kind = kind)
    (hkind : kind ≠ "GNUNullExpr" ∧ kind ≠ "CXXNullPtrLiteralExpr" ∧ kind ≠ "IntegerLiteral") :
    ¬ IsNil e := by
  rintro (hnil | hnil | ⟨hnil, -⟩)
  · exact hkind.1 (h.symm.trans hnil)
  · exact hkind.2.1 (h.symm.trans hnil)
  · exact hkind.2.2 (h.symm.trans hnil)

theorem yieldsOwned_iff :
    YieldsOwned env e ↔ (e.unwrap transparentKinds).kind ∈ objectLiterals ∨
      (e.unwrap transparentKinds).kind = "ObjCMessageExpr" ∧
        (Makes (e.unwrap transparentKinds) ∨ OwningSend env (e.unwrap transparentKinds)) := by
  constructor
  · rintro (h | ⟨hkind, h⟩ | ⟨hkind, h⟩)
    · exact .inl h
    · exact .inr ⟨hkind, .inl h⟩
    · exact .inr ⟨hkind, .inr h⟩
  · rintro (h | ⟨hkind, h | h⟩)
    · exact .literal h
    · exact .made hkind h
    · exact .owning hkind h

def Recognized (env : Env) (m : Node) : Prop :=
  m.receiverKind = "instance" ∧ ∃ receiver rest cls, m.inner = receiver :: rest ∧
    staticClass receiver = .ok cls ∧ cls ≠ "" ∧ (.text cls, m.selector) ∈ env.owning

def HasObjectType (m : Node) : Prop :=
  ∃ raw, m.qualType = .ok raw ∧ (SourceType.mk raw).isObject = true

theorem isMakingSend_eq (h : isMakingSend m = .ok b) : b = true ↔ Makes m := by
  obtain ⟨selector, hselector, h⟩ := bind_eq_ok.mp h
  rw [pure_eq_ok] at h
  rw [← h, Bool.or_eq_true, beq_iff_eq, Makes, textOr_eq_ok hselector]
  constructor
  · exact Or.imp_left fun h => ⟨selector, rfl, h⟩
  · refine Or.imp_left ?_
    rintro ⟨selector', heq, h⟩
    cases heq
    exact h

theorem sendsToOwning_eq {m : Node} (hkind : m.receiverKind = "instance")
    (h : sendsToOwning env.owning m = .ok b) : b = true ↔ Recognized env m := by
  unfold sendsToOwning at h
  split at h
  · next receiver rest hinner =>
    obtain ⟨raw, hraw, h⟩ := bind_eq_ok.mp h
    obtain ⟨cls, hcls, h⟩ := bind_eq_ok.mp h
    rw [pure_eq_ok] at h
    have hstatic : staticClass receiver = .ok cls := bind_eq_ok.mpr ⟨raw, hraw, hcls⟩
    rw [← h, Bool.and_eq_true, bne_iff_ne, contains_iff_mem]
    constructor
    · rintro ⟨hne, hmem⟩
      exact ⟨hkind, receiver, rest, cls, hinner, hstatic, hne, hmem⟩
    · rintro ⟨-, receiver', rest', cls', hinner', hstatic', hne, hmem⟩
      rw [hinner] at hinner'
      cases hinner'
      rw [hstatic] at hstatic'
      cases hstatic'
      exact ⟨hne, hmem⟩
  · next hinner =>
    cases h
    constructor
    · intro hfalse
      cases hfalse
    · rintro ⟨-, receiver, rest, cls, hinner', -⟩
      rw [hinner] at hinner'
      cases hinner'

theorem isBorrowed_of_message {b : Bool}
    (hkind : (e.unwrap transparentKinds).kind = "ObjCMessageExpr")
    (h : isBorrowed env.owning e = .ok b) :
    b = true ↔ ¬ Makes (e.unwrap transparentKinds) ∧ ¬ Recognized env (e.unwrap transparentKinds) := by
  simp only [isBorrowed, hkind, if_true] at h
  obtain ⟨making, hmaking, h⟩ := bind_eq_ok.mp h
  rw [← isMakingSend_eq hmaking]
  cases making with
  | true =>
    obtain rfl := pure_eq_ok.mp h
    simp
  | false =>
    simp only [Bool.false_eq_true, if_false, beq_iff_eq] at h
    split at h
    · next hinstance =>
      obtain ⟨owning, howning, h⟩ := bind_eq_ok.mp h
      obtain rfl := pure_eq_ok.mp h
      rw [← sendsToOwning_eq hinstance howning]
      simp
    · next hinstance =>
      obtain rfl := pure_eq_ok.mp h
      exact ⟨fun _ => ⟨nofun, fun hrecognized => hinstance hrecognized.1⟩, fun _ => rfl⟩

theorem isBorrowed_eq (h : isBorrowed env.owning e = .ok b) : b = true ↔
      (e.unwrap transparentKinds).kind = "ObjCMessageExpr" ∧ ¬ Makes (e.unwrap transparentKinds) ∧
          ¬ Recognized env (e.unwrap transparentKinds) ∨
        (e.unwrap transparentKinds).kind = "DeclRefExpr" ∧
          HasObjectType (e.unwrap transparentKinds) := by
  by_cases hmessage : (e.unwrap transparentKinds).kind = "ObjCMessageExpr"
  · rw [isBorrowed_of_message hmessage h, hmessage]
    simp
  · simp only [isBorrowed, hmessage, if_false] at h
    split at h
    · next href =>
      obtain ⟨raw, hraw, h⟩ := bind_eq_ok.mp h
      obtain ⟨type, htype, h⟩ := bind_eq_ok.mp h
      obtain rfl := pure_eq_ok.mp h
      obtain rfl := checked_eq_ok htype
      constructor
      · exact fun hobject => .inr ⟨href, raw, hraw, hobject⟩
      · rintro (⟨hkind, -⟩ | ⟨-, raw', hraw', hobject⟩)
        · exact absurd hkind hmessage
        · rw [hraw] at hraw'
          cases hraw'
          exact hobject
    · next href =>
      obtain rfl := pure_eq_ok.mp h
      simp [hmessage, href]

/-- Whether a declaration accounts for its value: not for a value that is neither a message, a
variable nor a literal, and not for an owning method that is inherited or sent to `super`. -/
def DeclarationSuits (env : Env) (e : Node) : Prop :=
  (e.unwrap transparentKinds).kind ∈ objectLiterals ∨ IsNil e ∨
    (e.unwrap transparentKinds).kind = "DeclRefExpr" ∧ HasObjectType (e.unwrap transparentKinds) ∨
    (e.unwrap transparentKinds).kind = "ObjCMessageExpr" ∧
      (Makes (e.unwrap transparentKinds) ∨
        (OwningSend env (e.unwrap transparentKinds) ↔ Recognized env (e.unwrap transparentKinds)))

theorem isBorrowed_suits (h : isBorrowed env.owning e = .ok b) :
    (b = true ↔ ¬ YieldsOwned env e ∧ ¬ IsNil e) ↔ DeclarationSuits env e := by
  rw [isBorrowed_eq h, yieldsOwned_iff, DeclarationSuits]
  have hmessage : (e.unwrap transparentKinds).kind = "ObjCMessageExpr" →
      (e.unwrap transparentKinds).kind ∉ objectLiterals ∧ ¬ IsNil e := by
    intro hkind
    exact ⟨by rw [hkind]; decide, not_isNil_of_kind hkind (by decide)⟩
  have href : (e.unwrap transparentKinds).kind = "DeclRefExpr" →
      (e.unwrap transparentKinds).kind ∉ objectLiterals ∧ ¬ IsNil e := by
    intro hkind
    exact ⟨by rw [hkind]; decide, not_isNil_of_kind hkind (by decide)⟩
  have hkinds : (e.unwrap transparentKinds).kind = "ObjCMessageExpr" →
      (e.unwrap transparentKinds).kind ≠ "DeclRefExpr" := by
    intro hkind
    rw [hkind]
    decide
  -- what remains is propositional: the four kinds of values exclude each other
  grind

theorem takesOver_iff (h : ∀ v ∈ s'.consumed, v ∈ t.consumed) :
    TakesOver env t s' e ↔ YieldsOwned env e := by
  refine ⟨?_, .inl⟩
  rintro (howned | ⟨v, -, hnew, hconsumed⟩)
  · exact howned
  · exact absurd (h v hconsumed) hnew

theorem isTrackedInnermost_declaring (howner : isOwner n type = true)
    (hopen : s.scopes ≠ []) (h : t.scopes = (s.declaring n type).scopes) :
    t.isTrackedInnermost (declaredName n) = true := by
  rw [State.declaring, if_pos howner, State.track] at h
  cases hs : s.scopes with
  | nil => exact absurd hs hopen
  | cons top rest =>
    rw [hs] at h
    rw [State.isTrackedInnermost, h]
    simp only [addNew]
    split
    · assumption
    · simp

theorem isObject_of_isOwner (h : isOwner n type = true) :
    (type.isObject && declaredName n != "self") = true := by
  simp only [isOwner, SourceType.isStrongObject, Bool.and_eq_true] at h ⊢
  exact ⟨h.1.1.1, h.1.2⟩

theorem mem_retained_ite {root v : String} :
    v ∈ Code.retained (if retained then [.retain depth root v] else []) ↔ retained = true := by
  cases retained <;> simp [Code.retained]

theorem declaration_accounts
    (hexpr : ∀ m, stacksFrame.Keeps (expr m)) (hopen : s.scopes ≠ []) (hshared : isShared n = false)
    (htype : declaredType n = .ok type) (howner : isOwner n type = true)
    (hinit : (initializer? n).filter (fun e => !e.isNull) = some e)
    (hvalue : Yields (expr e) env (s.declaring n type) text t)
    (h : Yields (lowerVarDecl expr depth n) env s code s') :
    ∃ v, Code.Stores code (declaredName n).plain v ∧
      (Accounts env t s' e v code ↔ DeclarationSuits env e) := by
  cases declared_of_yields h with
  | shared hshared' => rw [hshared] at hshared'; cases hshared'
  | bare _ _ hnone => rw [hinit] at hnone; cases hnone
  | value _ htype' hinit' hvalue' hkeeps =>
    rw [htype] at htype'
    cases htype'
    rw [hinit] at hinit'
    cases hinit'
    obtain ⟨rfl, rfl⟩ := yields_unique hvalue hvalue'
    have htracked := isTrackedInnermost_declaring (t := t.flushed) howner hopen
      (hexpr _ _ _ _ _ hvalue).1
    rw [KeepsValue, htracked, isObject_of_isOwner howner] at hkeeps
    refine ⟨_, .declared (mem_append_left _ (mem_append_right _ (.head _))), ?_⟩
    have htakes : TakesOver env t t.flushed e ↔ YieldsOwned env e := takesOver_iff fun _ => id
    rw [Accounts, htakes, ← isBorrowed_suits hkeeps]
    simp only [Code.retained_append, retained_temps, nil_append, mem_append,
      mem_retained_ite]
    simp [Code.retained]

theorem accounts_of_retained (h : v ∈ Code.retained code) :
    Accounts env t s' e v code ↔ ¬ TakesOver env t s' e ∧ ¬ IsNil e := by
  rw [Accounts]
  exact ⟨fun hiff => hiff.mp h, fun hneeds => ⟨fun _ => hneeds, fun _ => h⟩⟩

theorem accounts_of_retained_nil (h : Code.retained code = []) :
    Accounts env t s' e v code ↔ TakesOver env t s' e ∨ IsNil e := by
  rw [Accounts, h]
  simp only [not_mem_nil, false_iff, Classical.not_and_iff_not_or_not, Classical.not_not]

theorem not_owned_of_denotes (hkinds : kinds ⊆ transparentKinds)
    (h : Denotes kinds e v) : ¬ YieldsOwned env e ∧ ¬ IsNil e := by
  have hkind := kind_of_denotes hkinds h
  refine ⟨?_, not_isNil_of_kind hkind (by decide)⟩
  rw [yieldsOwned_iff, hkind]
  rintro (hliteral | ⟨hmessage, -⟩)
  · exact absurd hliteral (by decide)
  · exact absurd hmessage (by decide)

theorem variable_accounts (hexpr : stacksFrame.Keeps (expr e)) (hvalue : Yields (expr e) env s text t)
    (h : Yields (assignLocal expr depth var e) env s code s') :
    ∃ v, Code.Stores code var.plain v ∧
      (Accounts env t s' e v code ↔
        (∃ y, DenotesTracked s e y) ∨ YieldsOwned env e ∨ IsNil e) := by
  obtain ⟨text', t', tracked, hvalue', htracked, rfl, rfl⟩ := yields_assignLocal.mp h
  obtain ⟨rfl, rfl⟩ := yields_unique hvalue hvalue'
  refine ⟨text, .assigned (mem_append_right _ (.tail _ (.head _))), ?_⟩
  have htakes : TakesOver env t (t.flushed.restore var) e ↔ YieldsOwned env e :=
    takesOver_iff fun _ hv => (mem_filter.mp hv).1
  have hretained : text ∈ Code.retained (temps depth t
      ++ (if tracked.isSome then [.retain depth env.root text] else [])
      ++ [.release depth env.root var.plain, .assign depth var.plain text]) ↔
      ∃ y, DenotesTracked s e y := by
    rw [← isSome_trackedVar hexpr hvalue htracked, Code.retained_append, Code.retained_append,
      retained_temps]
    cases tracked <;> simp [Code.retained]
  have hvariable : (∃ y, DenotesTracked s e y) → ¬ YieldsOwned env e ∧ ¬ IsNil e :=
    fun ⟨_, hy⟩ => not_owned_of_denotes (by decide) hy.1
  rw [Accounts, hretained, htakes]
  grind

theorem handedOver_eq_some :
    handedOver? e = .ok (some v) ↔ Denotes castKinds e v ∧ v.holds = true ∧ v ≠ "self" := by
  simp only [handedOver?, bind_eq_ok, pure_eq_ok, Option.filter_eq_some_iff, Bool.and_eq_true,
    bne_iff_ne, ← returnedVar_eq_some]
  constructor
  · rintro ⟨var, hvar, rfl, hnamed⟩
    exact ⟨hvar, hnamed⟩
  · rintro ⟨hvar, hnamed⟩
    exact ⟨_, hvar, rfl, hnamed⟩

theorem denotes_unique (hkinds : kinds ⊆ transparentKinds) (hkinds' : kinds' ⊆ transparentKinds)
    (h : Denotes kinds e v) (h' : Denotes kinds' e v') : v = v' := by
  obtain ⟨m, d, hwraps, hkind, hd, hname, -⟩ := h
  obtain ⟨m', d', hwraps', hkind', hd', hname', -⟩ := h'
  have hm := (hwraps.mono hkinds).unwrap_eq (by rw [hkind]; decide)
  have hm' := (hwraps'.mono hkinds').unwrap_eq (by rw [hkind']; decide)
  rw [← hm', hm, hd] at hd'
  cases hd'
  rw [hname] at hname'
  cases hname'
  rfl

theorem checkTracked_eq_ok (h : s.checkTracked name = .ok tracked) : tracked = s.isTracked name := by
  unfold State.checkTracked at h
  split at h
  · next hscopes =>
    cases h
    rw [List.isEmpty_iff] at hscopes
    simp [State.isTracked, hscopes]
  · obtain ⟨key, hkey, h⟩ := bind_eq_ok.mp h
    unfold Json.asKey at hkey
    split at hkey
    · cases hkey
      exact (pure_eq_ok.mp h).symm
    · cases hkey

/-- The expression is a variable, other than the receiver, whose value an instance variable gets a
reference to: a parameter, which is retained, or a tracked variable that still has its reference. -/
def HandsOver (env : Env) (t : State) (e : Node) : Prop :=
  ∃ v, Denotes castKinds e v ∧ v.holds = true ∧ v ≠ "self" ∧
    (isParam env v = true ∨ t.isTracked v = true ∧ v ∉ t.consumed)

theorem handsOver_iff (h : handedOver? e = .ok (some v)) :
    HandsOver env t e ↔ isParam env v = true ∨ t.isTracked v = true ∧ v ∉ t.consumed := by
  obtain ⟨hdenotes, hnamed⟩ := handedOver_eq_some.mp h
  constructor
  · rintro ⟨v', hdenotes', -, -, hkept⟩
    rwa [denotes_unique (by decide) (by decide) hdenotes hdenotes']
  · intro hkept
    exact ⟨v, hdenotes, hnamed.1, hnamed.2, hkept⟩

theorem mem_consumed_consume :
    name ∈ (s.consume name).consumed ↔ name ∈ s.consumed ∨ s.isTracked name = true := by
  unfold State.consume addNew
  split
  · next htracked =>
    split
    · next hmem => simp_all
    · simp [htracked]
  · next htracked => simp [htracked]

theorem takesOver_local (hdenotes : Denotes castKinds e v) :
    TakesOver env t (if t.isTracked v then t.flushed.consume v else t.flushed) e ↔
      t.isTracked v = true ∧ v ∉ t.consumed := by
  constructor
  · rintro (howned | ⟨v', hdenotes', hnew, hconsumed⟩)
    · exact absurd howned (not_owned_of_denotes (by decide) hdenotes).1
    · obtain rfl := denotes_unique (by decide) (fun _ => id) hdenotes hdenotes'
      split at hconsumed
      · next htracked => exact ⟨htracked, hnew⟩
      · exact absurd hconsumed hnew
  · rintro ⟨htracked, hnew⟩
    obtain ⟨m, d, hwraps, href⟩ := hdenotes
    refine .inr ⟨v, ⟨m, d, hwraps.mono (by decide), href⟩, hnew, ?_⟩
    rw [if_pos htracked]
    exact mem_consumed_consume.mpr (.inr htracked)

theorem ivar_accounts (hvalue : Yields (expr e) env s text t)
    (h : Yields (assignIvar expr depth ivar lhs e) env s code s') :
    ∃ v, Code.Stores code s!"self->{ivar}" v ∧
      (Accounts env t s' e v code ↔ HandsOver env t e ∨ YieldsOwned env e ∨ IsNil e) := by
  cases stored_of_yields h with
  | param hover hparam hvalue' =>
    obtain ⟨rfl, rfl⟩ := yields_unique hvalue hvalue'
    refine ⟨text, .assigned (mem_append_right _ (.tail _ (.tail _ (.head _)))), ?_⟩
    have hretained : text ∈ Code.retained (temps depth t
        ++ .retain depth env.root text :: storeCode depth env.root ivar text) := by
      rw [Code.retained_append, retained_temps]
      exact .head _
    have htakes : TakesOver env t t.flushed e ↔ YieldsOwned env e := takesOver_iff fun _ => id
    rw [accounts_of_retained hretained, htakes]
    exact ⟨fun _ => .inl ((handsOver_iff hover).mpr (.inl hparam)),
      fun _ => not_owned_of_denotes (by decide) (handedOver_eq_some.mp hover).1⟩
  | @«local» var _ _ _ hover hparam hvalue' htracked =>
    obtain ⟨rfl, rfl⟩ := yields_unique hvalue hvalue'
    obtain rfl := checkTracked_eq_ok htracked
    refine ⟨text, .assigned (mem_append_right _ (.tail _ (.head _))), ?_⟩
    have hretained : Code.retained (temps depth t ++ storeCode depth env.root ivar text) = [] := by
      rw [Code.retained_append, retained_temps]
      rfl
    have hdenotes := (handedOver_eq_some.mp hover).1
    have hvariable : ¬ YieldsOwned env e ∧ ¬ IsNil e := not_owned_of_denotes (by decide) hdenotes
    have htakes : TakesOver env t
        (if t.flushed.isTracked var then t.flushed.consume var else t.flushed) e ↔ _ :=
      takesOver_local hdenotes
    rw [accounts_of_retained_nil hretained, htakes, handsOver_iff hover, hparam]
    simp [hvariable]
  | other hover _ hvalue' =>
    obtain ⟨rfl, rfl⟩ := yields_unique hvalue hvalue'
    refine ⟨_, .assigned (mem_append_right _ (.tail _ (.tail _ (.head _)))), ?_⟩
    have hnone : ¬ HandsOver env t e := by
      rintro ⟨v, hdenotes, hholds, hself, -⟩
      have hsome := handedOver_eq_some.mpr ⟨hdenotes, hholds, hself⟩
      rw [hover] at hsome
      cases hsome
    rw [accounts_of_retained_nil, takesOver_iff]
    · simp [hnone]
    · exact fun _ => id
    · rw [Code.retained_append, retained_temps]
      rfl

def Site.Suits (env : Env) (s t : State) (e : Node) : Site → Prop
  | .declaration => DeclarationSuits env e
  | .assignment => (∃ y, DenotesTracked s e y) ∨ YieldsOwned env e ∨ IsNil e
  | .ivar => HandsOver env t e ∨ YieldsOwned env e ∨ IsNil e

theorem assignIvar_of_yields (hinner : n.inner = [lhs, e]) (hivar : strongIvar? env.cls lhs = .ok (some ivar))
    (h : Yields (lowerAssign below depth n) env s code s') :
    Yields (assignIvar below.expr depth ivar lhs e) env s code s' := by
  replace h := yields_bind_children h
  rw [hinner] at h
  obtain ⟨ivar', hivar', h⟩ := yields_liftM_bind.mp (yields_read_bind.mp h)
  rw [hivar] at hivar'
  cases hivar'
  exact h

theorem Store.accounts_iff (h : Store env k depth s e site place t s' code) :
    ∃ v, Code.Stores code place v ∧ (Accounts env t s' e v code ↔ site.Suits env s t e) := by
  cases h with
  | declaration hopen hshared htype howner hinit hvalue h =>
    exact declaration_accounts (level_expr_keeps_stacks k) hopen hshared htype howner hinit hvalue h
  | assignment hkind hop hinner hvar hvalue h =>
    exact variable_accounts (level_expr_keeps_stacks k e) hvalue
      (assignLocal_of_yields hinner hvar (assign_of_yields hkind hop h))
  | ivar hkind hop hinner hivar hvalue h =>
    exact ivar_accounts hvalue (assignIvar_of_yields hinner hivar (assign_of_yields hkind hop h))

theorem uninitialized_of_yields (hshared : isShared n = false) (htype : declaredType n = .ok type)
    (hinit : (initializer? n).filter (fun e => !e.isNull) = none)
    (h : Yields (lowerVarDecl expr depth n) env s code s') (name value : String) :
    .declare depth name (type.declare (declaredName n) ++ " = " ++ value) ∉ code := by
  cases declared_of_yields h with
  | shared hshared' => rw [hshared] at hshared'; cases hshared'
  | bare _ htype' _ =>
    rw [htype] at htype'
    cases htype'
    intro hmem
    have htext := (Code.declare.inj (mem_singleton.mp hmem)).2.2
    have hlength := congrArg String.length htext
    simp only [String.length_append] at hlength
    have : " = ".length = 3 := rfl
    omega
  | value _ _ hinit' => rw [hinit] at hinit'; cases hinit'

/-- When stores account for ownership. Each kind of store does so for the values that suit its rule
and for no others; a variable that is declared without a value is never given one. -/
theorem stores_account_for_references :
    (∀ site place t s' code, Store env k depth s e site place t s' code →
      ∃ v, Code.Stores code place v ∧ (Accounts env t s' e v code ↔ site.Suits env s t e)) ∧
    ∀ n type code s', isShared n = false → declaredType n = .ok type →
      (initializer? n).filter (fun e => !e.isNull) = none →
      Yields (lowerVarDecl (level k).expr depth n) env s code s' →
      ∀ value, .declare depth (declaredName n).plain
        (type.declare (declaredName n) ++ " = " ++ value) ∉ code := by
  constructor
  · intro site place t s' code h
    exact h.accounts_iff
  · intro n type code s' hshared htype hinit h value
    exact uninitialized_of_yields hshared htype hinit h _ value

def Env.withIvar : Env :=
  { Env.sample with cls := { name := "Foo", ivars := [{ name := "_i", type := ⟨"id"⟩ }] } }

def ivarRef (name : String) : Node :=
  .mk { kind := "ObjCIvarRefExpr", decl := .present { name := some (.text name) } }
    [.varRef "self" "id"]

set_option maxRecDepth 4000 in
/-- `id x = y;`, `x = y;`, `_i = x;` and `id x;` -/
theorem variables_account_for_references :
    (∃ v, Code.Stores [.declare 1 "x" "struct OZObject * x = y", .retain 1 "OZObject" "x"] "x" v ∧
      Accounts .sample { scopes := [["x"]] } { scopes := [["x"]] } (.varRef "y" "id") v
        [.declare 1 "x" "struct OZObject * x = y", .retain 1 "OZObject" "x"]) ∧
    (∃ v, Code.Stores [.retain 1 "OZObject" "y", .release 1 "OZObject" "x", .assign 1 "x" "y"] "x" v ∧
      Accounts .sample { scopes := [["x", "y"]] } { scopes := [["x", "y"]] } (.varRef "y" "id") v
        [.retain 1 "OZObject" "y", .release 1 "OZObject" "x", .assign 1 "x" "y"]) ∧
    (∃ v, Code.Stores [.release 1 "OZObject" "self->_i", .assign 1 "self->_i" "x"] "self->_i" v ∧
      Accounts .withIvar { scopes := [["x"]] } { scopes := [["x"]], consumed := ["x"] }
        (.varRef "x" "id") v [.release 1 "OZObject" "self->_i", .assign 1 "self->_i" "x"]) ∧
    Yields (lowerVarDecl (level 3).expr 1 (.varDecl "x" "id" [])) .sample { scopes := [[]] }
      [.declare 1 "x" "struct OZObject * x"] { scopes := [["x"]] } ∧
    .declare 1 "x" "struct OZObject * x = NULL" ∉ [Code.declare 1 "x" "struct OZObject * x"] := by
  have hdeclared : Store .sample 3 1 { scopes := [[]] } (.varRef "y" "id") .declaration "x"
      { scopes := [["x"]] } { scopes := [["x"]] }
      [.declare 1 "x" "struct OZObject * x = y", .retain 1 "OZObject" "x"] :=
    .declaration (n := .varDecl "x" "id" [.varRef "y" "id"]) nofun rfl rfl rfl rfl rfl rfl
  have hassigned : Store .sample 3 1 { scopes := [["x", "y"]] } (.varRef "y" "id") .assignment "x"
      { scopes := [["x", "y"]] } { scopes := [["x", "y"]] }
      [.retain 1 "OZObject" "y", .release 1 "OZObject" "x", .assign 1 "x" "y"] :=
    .assignment (n := assignTo (.varRef "x" "id") (.varRef "y" "id")) rfl rfl rfl
      (denotesTracked_varRef rfl (by decide) rfl) rfl rfl
  have hstored : Store .withIvar 3 1 { scopes := [["x"]] } (.varRef "x" "id") .ivar "self->_i"
      { scopes := [["x"]] } { scopes := [["x"]], consumed := ["x"] }
      [.release 1 "OZObject" "self->_i", .assign 1 "self->_i" "x"] :=
    .ivar (n := assignTo (ivarRef "_i") (.varRef "x" "id")) (i := "_i") rfl rfl rfl rfl rfl rfl
  have hbare : Yields (lowerVarDecl (level 3).expr 1 (.varDecl "x" "id" [])) .sample
      { scopes := [[]] } [.declare 1 "x" "struct OZObject * x"] { scopes := [["x"]] } := rfl
  obtain ⟨v, hv, hdeclaration⟩ := stores_account_for_references.1 _ _ _ _ _ hdeclared
  obtain ⟨w, hw, hassignment⟩ := stores_account_for_references.1 _ _ _ _ _ hassigned
  obtain ⟨u, hu, hivar⟩ := stores_account_for_references.1 _ _ _ _ _ hstored
  refine ⟨⟨v, hv, hdeclaration.mpr ?_⟩, ⟨w, hw, hassignment.mpr ?_⟩, ⟨u, hu, hivar.mpr ?_⟩, hbare,
    (stores_account_for_references (s := { scopes := [[]] }) (e := .bare "" [])).2 _ ⟨"id"⟩ _ _ rfl
      rfl rfl hbare "NULL"⟩
  · exact .inr (.inr (.inl ⟨rfl, "id", rfl, rfl⟩))
  · exact .inl ⟨"y", denotesTracked_varRef rfl (by decide) rfl⟩
  · exact .inl ⟨"x", denotes_varRef _ _ _, rfl, by decide, .inr ⟨rfl, nofun⟩⟩

set_option maxRecDepth 4000 in
/-- `x = g;` where no scope has a variable `g` -/
theorem untracked_value_not_retained :
    Yields (lowerStmtKind (level 3) 1 (assignTo (.varRef "x" "id") (.varRef "g" "id"))) .sample
        { scopes := [["x"]] } [.release 1 "OZObject" "x", .assign 1 "x" "g"]
        { scopes := [["x"]] } ∧
      ¬ Accounts .sample { scopes := [["x"]] } { scopes := [["x"]] } (.varRef "g" "id") "g"
        [.release 1 "OZObject" "x", .assign 1 "x" "g"] := by
  refine ⟨rfl, ?_⟩
  have hvariable : ¬ YieldsOwned .sample (.varRef "g" "id") ∧ ¬ IsNil (.varRef "g" "id") :=
    not_owned_of_denotes (fun _ => id) (denotes_varRef transparentKinds "g" "id")
  rw [accounts_of_retained_nil rfl, takesOver_iff fun _ => id]
  exact fun h => h.elim hvariable.1 hvariable.2

end ObjcLowering.Lowering
