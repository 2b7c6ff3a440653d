import ObjcLowering.Proofs.Lowering.Stores

/-! Structured bodies. -/

namespace ObjcLowering

namespace Ast.Node

inductive Wraps (kinds : List String) : Node → Node → Prop
  | refl (n : Node) : Wraps kinds n n
  | step : n.kind ∈ kinds → n.inner = c :: rest →
      Wraps kinds c m → Wraps kinds n m

theorem Wraps.mono {kinds kinds' : List String} (h : Wraps kinds n m)
    (hkinds : kinds ⊆ kinds') : Wraps kinds' n m := by
  induction h with
  | refl n => exact .refl n
  | step hkind hn _ ih => exact .step (hkinds hkind) hn ih

theorem unwrap_of_notMem {kinds : List String} {n : Node} (h : n.kind ∉ kinds) :
    n.unwrap kinds = n := by
  cases n with
  | mk a ns =>
    rw [unwrap, if_neg]
    simpa using h

theorem unwrap_of_mem {kinds : List String} {n c : Node} (h : n.kind ∈ kinds)
    (hn : n.inner = c :: rest) : n.unwrap kinds = c.unwrap kinds := by
  cases n with
  | mk a ns =>
    rw [inner_mk] at hn
    rw [unwrap, if_pos (by simpa using h), hn, unwrapFirst]

theorem Wraps.unwrap_eq {kinds : List String} (h : Wraps kinds n m)
    (hm : m.kind ∉ kinds) : n.unwrap kinds = m := by
  induction h with
  | refl n => exact unwrap_of_notMem hm
  | step hkind hn _ ih => rw [unwrap_of_mem hkind hn, ih hm]

mutual

theorem wraps_unwrap (kinds : List String) : (n : Node) → Wraps kinds n (n.unwrap kinds)
  | mk a ns => by
    by_cases h : a.kind ∈ kinds
    · rw [unwrap, if_pos (by simpa using h)]
      exact wraps_unwrapFirst kinds (mk a ns) h ns rfl
    · rw [unwrap, if_neg (by simpa using h)]
      exact .refl _

theorem wraps_unwrapFirst (kinds : List String) (outer : Node) (h : outer.kind ∈ kinds) :
    (ns : List Node) → outer.inner = ns → Wraps kinds outer (unwrapFirst kinds outer ns)
  | [], _ => .refl _
  | n :: _, hns => .step h hns (wraps_unwrap kinds n)

end

def compositeKinds : List String :=
  ["CompoundStmt", "IfStmt", "WhileStmt", "DoStmt", "ForStmt", "SwitchStmt", "CaseStmt",
   "DefaultStmt", "ObjCForCollectionStmt", "ObjCAtSynchronizedStmt", "ObjCAutoreleasePoolStmt"]

mutual

/-- The declarations of variables in a statement; those in expressions belong to other functions. -/
def locals : Node → List Node
  | mk a ns =>
    if a.kind = "DeclStmt" then ns.filter fun d => d.kind == "VarDecl"
    else if compositeKinds.contains a.kind then localsAll ns
    else []

def localsAll : List Node → List Node
  | [] => []
  | n :: ns => locals n ++ localsAll ns

end

theorem locals_of_declStmt {n : Node} (h : n.kind = "DeclStmt") :
    n.locals = n.inner.filter fun d => d.kind == "VarDecl" := by
  cases n with
  | mk a ns => rw [locals, if_pos (by simpa using h), inner_mk]

theorem locals_of_composite {n : Node} (h : n.kind ∈ compositeKinds) :
    n.locals = localsAll n.inner := by
  cases n with
  | mk a ns =>
    have hdecl : a.kind ≠ "DeclStmt" := by
      intro hdecl
      rw [kind_mk, hdecl] at h
      revert h
      decide
    rw [locals, if_neg hdecl, if_pos (by simpa using h), inner_mk]

theorem locals_sublist_of_mem {n : Node} (h : n ∈ ns) : n.locals.Sublist (localsAll ns) := by
  induction ns with
  | nil => cases h
  | cons m ns ih =>
    rw [localsAll]
    cases h with
    | head => exact List.sublist_append_left _ _
    | tail _ h => exact (ih h).trans (List.sublist_append_right _ _)

end Ast.Node

namespace Lowering

open Ast

def Denotes (kinds : List String) (e : Node) (name : Name) : Prop :=
  ∃ m d, Node.Wraps kinds e m ∧ m.kind = "DeclRefExpr" ∧ m.attrs.referencedDecl.get = .ok d ∧
    d.name = some name ∧ name ≠ .null

def castKinds : List String := ["ImplicitCastExpr", "CStyleCastExpr", "ParenExpr"]

theorem returnedVar_eq_some {name : Name} :
    returnedVar? e = .ok (some name) ↔ Denotes castKinds e name := by
  have hkinds : "DeclRefExpr" ∉ castKinds := by decide
  simp only [returnedVar?, Denotes]
  constructor
  · intro h
    split at h
    · cases h
    · next hkind =>
      simp only [bne_iff_ne, ne_eq, Decidable.not_not] at hkind
      obtain ⟨d, hd, hname⟩ := bind_eq_ok.mp h
      rw [pure_eq_ok, Option.filter_eq_some_iff] at hname
      exact ⟨_, d, Node.wraps_unwrap castKinds e, hkind, hd, hname.1, by simpa using hname.2⟩
  · rintro ⟨m, d, hwraps, hkind, hd, hname, hnull⟩
    have hunwrap : e.unwrap ["ImplicitCastExpr", "CStyleCastExpr", "ParenExpr"] = m :=
      hwraps.unwrap_eq (by rw [hkind]; exact hkinds)
    have hfilter : d.name.filter (· != .null) = some name := by
      rw [Option.filter_eq_some_iff]
      exact ⟨hname, by simpa using hnull⟩
    rw [hunwrap, hkind, if_neg (by simp), hd]
    exact congrArg Except.ok hfilter

def Unexpanded (n : Node) : Prop := ∀ use, macroUse? n ≠ .ok (some use)

theorem unexpanded_of_range (h : n.attrs.range = .absent) : Unexpanded n := by
  intro use huse
  simp only [macroUse?, Node.firstPlace, h] at huse
  cases huse

theorem unexpanded_bare (kind : String) (inner : List Node) : Unexpanded (.bare kind inner) :=
  unexpanded_of_range rfl

theorem lowerStmtKind_of_unexpanded (hn : Unexpanded n)
    (h : Yields (stmtStep below depth n) env s code s') :
    Yields (lowerStmtKind below depth n) env s code s' := by
  simp only [stmtStep, yields_liftM_bind, Node.check_eq_ok] at h
  obtain ⟨_, ⟨-, rfl⟩, h⟩ := h
  obtain ⟨copy, t, hcopy, hrest⟩ := yields_bind.mp h
  simp only [copyStmt?, yields_liftM_bind] at hcopy
  obtain ⟨use, huse, hcopy⟩ := hcopy
  cases use with
  | some use => exact absurd huse (hn use)
  | none =>
    obtain ⟨rfl, rfl⟩ := yields_pure.mp hcopy
    exact hrest

theorem lowerKind_of_unexpanded {text : String} (hn : Unexpanded n) (hkind : n.kind ≠ "RecoveryExpr")
    (h : Yields (exprStep below n) env s text s') : Yields (lowerKind below n) env s text s' := by
  simp only [exprStep, yields_liftM_bind, Node.check_eq_ok] at h
  obtain ⟨_, ⟨-, rfl⟩, h⟩ := h
  rw [if_neg hkind] at h
  obtain ⟨copy, t, hcopy, hrest⟩ := yields_bind.mp h
  rw [copyExpr?, yields_read_bind] at hcopy
  have hnone : copy = none ∧ t = s := by
    split at hcopy
    · obtain ⟨use, huse, hcopy⟩ := yields_liftM_bind.mp hcopy
      cases use with
      | some use => exact absurd huse (hn use)
      | none => exact yields_pure.mp hcopy
    · exact yields_pure.mp hcopy
  obtain ⟨rfl, rfl⟩ := hnone
  exact hrest

def controlKinds : List String :=
  ["ExprWithCleanups", "ReturnStmt", "DeclStmt", "IfStmt", "ForStmt", "WhileStmt", "DoStmt",
   "CompoundStmt", "ObjCAutoreleasePoolStmt", "ObjCAtSynchronizedStmt", "ObjCForCollectionStmt",
   "SwitchStmt", "CaseStmt", "DefaultStmt", "NullStmt", "BreakStmt", "ContinueStmt"]

def IsPlainExpr (n : Node) : Prop :=
  n.kind ∉ controlKinds ∧ ¬ (n.kind = "BinaryOperator" ∧ n.opcode = "=")

theorem lowerStmtKind_of_plainExpr (h : IsPlainExpr n) :
    lowerStmtKind below depth n = lowerExprStmt below depth n := by
  obtain ⟨hkind, hassign⟩ := h
  unfold lowerStmtKind
  split
  case h_18 hk =>
    rw [if_neg]
    intro hop
    exact hassign ⟨hk, by simpa using hop⟩
  case h_19 => rfl
  all_goals
    next hk =>
    rw [hk] at hkind
    exact absurd (by decide) hkind

theorem IsPlainExpr.locals (h : IsPlainExpr n) : n.locals = [] := by
  cases n with
  | mk a ns =>
    have hdecl : a.kind ≠ "DeclStmt" := by
      intro hdecl
      exact h.1 (by rw [Node.kind_mk, hdecl]; decide)
    have hcomposite : ¬ Node.compositeKinds.contains a.kind = true := by
      intro hcomposite
      have hsub : Node.compositeKinds ⊆ controlKinds := by decide
      exact h.1 (hsub (by simpa using hcomposite))
    rw [Node.locals, if_neg hdecl, if_neg hcomposite]

/-- Whether a declaration makes a variable that owns the object it refers to: a strong reference that
no bridged cast has lent. -/
def DeclaresOwner (d : Node) : Prop :=
  ∃ type, declaredType d = .ok type ∧ type.isStrongObject = true ∧
    ((initializer? d).map isBridgeCast).getD false = false

/-- Statements without assignments, uses of macros, shared variables, switches and loops over
collections. Variables are declared directly in blocks. A return may hand out a variable, but only
below casts and parentheses. -/
inductive Structured : Node → Prop
  | block : n.kind = "CompoundStmt" → Unexpanded n →
      (∀ m ∈ n.inner, m.kind = "DeclStmt" → Unexpanded m ∧ ∀ d ∈ m.locals, isShared d = false) →
      (∀ m ∈ n.inner, m.kind ≠ "DeclStmt" → Structured m) → Structured n
  | pool {n body : Node} {rest : List Node} : n.kind = "ObjCAutoreleasePoolStmt" →
      Unexpanded n → n.inner = body :: rest → body.kind = "CompoundStmt" → Structured body →
      Structured n
  | lock : n.kind = "ObjCAtSynchronizedStmt" →
      Unexpanded n → n.inner = object :: body :: rest → body.kind = "CompoundStmt" →
      Structured body → Structured n
  | branch {n cond yes : Node} {rest : List Node} : n.kind = "IfStmt" → Unexpanded n →
      n.inner = cond :: yes :: rest → (∀ m ∈ yes :: rest, m.isNull = false) →
      (∀ m ∈ yes :: rest, Structured m) → Structured n
  | whileLoop {n cond body : Node} {rest : List Node} : n.kind = "WhileStmt" → Unexpanded n →
      n.inner = cond :: body :: rest → Structured body → Structured n
  | doLoop {n body cond : Node} {rest : List Node} : n.kind = "DoStmt" → Unexpanded n →
      n.inner = body :: cond :: rest → Structured body → Structured n
  | forLoop {n init body : Node} {rest : List Node} : n.kind = "ForStmt" → Unexpanded n →
      n.inner = init :: rest → (∀ d ∈ init.locals, ¬ DeclaresOwner d) →
      n.inner.length ≤ 5 → n.inner.getLast? = some body → body.isNull = false → Structured body →
      Structured n
  | returns : n.kind = "ReturnStmt" → Unexpanded n →
      (∀ e ∈ n.inner.head?, ∀ name, Denotes transparentKinds e name → Denotes castKinds e name) →
      Structured n
  | jump : n.kind = "BreakStmt" ∨ n.kind = "ContinueStmt" ∨ n.kind = "NullStmt" →
      Unexpanded n → Structured n
  | expr : IsPlainExpr n → Unexpanded n → Structured n
  | cleanups {n c : Node} {rest : List Node} : n.kind = "ExprWithCleanups" → Unexpanded n →
      n.inner = c :: rest → IsPlainExpr c → Unexpanded c → Structured n

theorem structured_block {ns : List Node}
    (hdecl : ∀ m ∈ ns, m.kind = "DeclStmt" → Unexpanded m ∧ ∀ d ∈ m.locals, isShared d = false)
    (hstmt : ∀ m ∈ ns, m.kind ≠ "DeclStmt" → Structured m) :
    Structured (.bare "CompoundStmt" ns) :=
  .block rfl (unexpanded_bare _ _) hdecl hstmt

theorem declares_varStmt {name type : String} (h : (init.any fun c => c.kind == "BlocksAttr") = false) :
    Unexpanded (.varStmt name type init) ∧
      ∀ d ∈ (Node.varStmt name type init).locals, isShared d = false := by
  refine ⟨unexpanded_bare _ _, fun d hd => ?_⟩
  cases hd with
  | head => exact h
  | tail _ hd => cases hd

theorem structured_returnVar (name type : String) :
    Structured (.bare "ReturnStmt" [.varRef name type]) := by
  refine .returns rfl (unexpanded_bare _ _) fun e he name h => ?_
  cases he
  obtain ⟨m, d, hwraps, h⟩ := h
  cases hwraps with
  | refl => exact ⟨_, d, .refl _, h⟩
  | step hkind => exact absurd hkind (show "DeclRefExpr" ∉ transparentKinds by decide)

end Lowering

end ObjcLowering
