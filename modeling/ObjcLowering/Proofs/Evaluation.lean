import ObjcLowering.Proofs.Nodes

/-! How often C evaluates the parts of an expression or a statement. -/

namespace ObjcLowering.Ast

/-- The way from a node to a part of it: the number of the child to go to, step by step. -/
abbrev Position := List Nat

def Node.part? : Node → Position → Option Node
  | n, [] => some n
  | n, i :: p => n.inner[i]?.bind fun c => c.part? p

variable {n m c : Node}

@[simp] theorem Node.part_nil : n.part? [] = some n := rfl

theorem Node.part_cons : n.part? (i :: p) = n.inner[i]?.bind fun c => c.part? p := rfl

@[simp] theorem Node.part_one : n.part? [i] = n.inner[i]? := by
  rw [Node.part_cons]
  cases n.inner[i]? <;> rfl

theorem Node.part_append : n.part? (p ++ q) = (n.part? p).bind fun c => c.part? q := by
  induction p generalizing n with
  | nil => rfl
  | cons i p ih =>
    rw [List.cons_append, Node.part_cons, Node.part_cons, Option.bind_assoc]
    simp only [ih]

theorem Node.mem_preorder_of_part (h : n.part? p = some c) : c ∈ n.preorder := by
  induction p generalizing n with
  | nil => exact Option.some.inj h ▸ Node.mem_preorder_self n
  | cons i p ih =>
    obtain ⟨d, hd, h⟩ := Option.bind_eq_some_iff.mp h
    exact Node.preorder_subset_of_inner (List.mem_of_getElem? hd) (ih h)

inductive Rate
  | never
  | once
  | atMostOnce
  | atLeastOnce
  | anyNumber
  deriving DecidableEq, Inhabited, Repr

def Rate.Allows : Rate → Nat → Prop
  | never, times => times = 0
  | once, times => times = 1
  | atMostOnce, times => times ≤ 1
  | atLeastOnce, times => 1 ≤ times
  | anyNumber, _ => True

mutual

/-- Whether a node of some kinds stands in a tree, not counting what stands inside nodes of the kinds
`around`. -/
def Node.hasOutside (kinds around : List String) : Node → Bool
  | mk a ns => kinds.contains a.kind || (!around.contains a.kind && hasOutsideAny kinds around ns)

def Node.hasOutsideAny (kinds around : List String) : List Node → Bool
  | [] => false
  | n :: ns => n.hasOutside kinds around || hasOutsideAny kinds around ns

end

def loopKinds : List String := ["WhileStmt", "DoStmt", "ForStmt", "ObjCForCollectionStmt"]

def Node.mayBeLeft (n : Node) : Bool :=
  n.hasOutside ["ReturnStmt", "GotoStmt", "IndirectGotoStmt"] ["BlockExpr"]
    || n.hasOutside ["BreakStmt"] ("BlockExpr" :: "SwitchStmt" :: loopKinds)
    || n.hasOutside ["ContinueStmt"] ("BlockExpr" :: loopKinds)

def Node.mayBeEntered (n : Node) : Bool :=
  n.hasOutside ["LabelStmt"] ["BlockExpr"]
    || n.hasOutside ["CaseStmt", "DefaultStmt"] ["BlockExpr", "SwitchStmt"]

def Node.isZero (n : Node) : Bool :=
  n.belowCasts.kind == "IntegerLiteral" && n.belowCasts.attrs.value == some "0"

def rate (n : Node) (i : Nat) : Rate :=
  match n.kind with
  | "BinaryOperator" =>
    if i ≠ 0 && (n.opcode == "&&" || n.opcode == "||") then .atMostOnce else .once
  | "ConditionalOperator" | "BinaryConditionalOperator" | "IfStmt" | "SwitchStmt" =>
    if i = 0 then .once else .atMostOnce
  | "GenericSelectionExpr" => if i = 0 then .never else .atMostOnce
  | "UnaryExprOrTypeTraitExpr" | "BlockExpr" => .never
  | "CaseStmt" => if i = 0 then .never else .once
  | "WhileStmt" => if i = 0 then .atLeastOnce else .anyNumber
  | "DoStmt" =>
    if i ≠ 0 then .anyNumber
    -- The body of `do … while (0)` stands for itself.
    else if (n.inner[1]?.map Node.isZero).getD false then .once else .atLeastOnce
  | "ForStmt" => if i = 0 then .once else .anyNumber
  | "ObjCForCollectionStmt" => if i = 1 then .once else .anyNumber
  | "CompoundStmt" =>
    if n.mayBeEntered then .anyNumber
    else if (n.inner.take i).any Node.mayBeLeft then .atMostOnce else .once
  | "LabelStmt" => .anyNumber
  | _ => .once

/-- A number of runs, each of which counts what `P` allows, count `k` together. -/
inductive Total (P : Nat → Prop) : (runs : Nat) → (k : Nat) → Prop
  | none : Total P 0 0
  | more : P j → Total P runs k → Total P (runs + 1) (j + k)

def Evaluated : Node → Position → Nat → Prop
  | _, [], k => k = 1
  | n, i :: p, k => ∃ c runs, n.inner[i]? = some c ∧ (rate n i).Allows runs ∧ Total (Evaluated c p) runs k

def EvaluatedOnce (n : Node) (p : Position) : Prop := ∀ k, Evaluated n p k → k = 1

/-- Whether every step on the way to a position leads to a child that is evaluated exactly once. -/
def Node.isSteady : Node → Position → Bool
  | _, [] => true
  | n, i :: p => rate n i == .once && (n.inner[i]?.map fun c => c.isSteady p).getD true

theorem Node.isSteady_cons (h : n.inner[i]? = some c) :
    n.isSteady (i :: p) ↔ rate n i = .once ∧ c.isSteady p := by
  simp [Node.isSteady, h]

theorem total_one : Total P 1 k ↔ P k := by
  constructor
  · intro h
    cases h with
    | more hj h =>
      cases h
      exact hj
  · intro h
    exact .more h .none

theorem evaluatedOnce_of_isSteady (h : n.isSteady p) : EvaluatedOnce n p := by
  induction p generalizing n with
  | nil => exact fun k hk => hk
  | cons i p ih =>
    rintro k ⟨c, runs, hc, hruns, hk⟩
    obtain ⟨hrate, hsteady⟩ := (Node.isSteady_cons hc).mp h
    rw [hrate] at hruns
    cases hruns
    exact ih hsteady k (total_one.mp hk)

theorem exists_evaluated (h : n.part? p = some m) :
    ∃ k, Evaluated n p k ∧ (k = 1 ↔ n.isSteady p) := by
  induction p generalizing n with
  | nil => exact ⟨1, rfl, by simp [Node.isSteady]⟩
  | cons i p ih =>
    rw [Node.part_cons] at h
    obtain ⟨c, hc, h⟩ := Option.bind_eq_some_iff.mp h
    obtain ⟨k, hk, hsteady⟩ := ih h
    have hnone : (rate n i).Allows 0 → rate n i ≠ .once →
        ∃ k, Evaluated n (i :: p) k ∧ (k = 1 ↔ n.isSteady (i :: p)) := by
      intro hruns hrate
      exact ⟨0, ⟨c, 0, hc, hruns, .none⟩, by simp [Node.isSteady_cons hc, hrate]⟩
    have htwice : (rate n i).Allows 2 → rate n i ≠ .once →
        ∃ k, Evaluated n (i :: p) k ∧ (k = 1 ↔ n.isSteady (i :: p)) := by
      intro hruns hrate
      refine ⟨k + (k + 0), ⟨c, 2, hc, hruns, .more hk (.more hk .none)⟩, ?_⟩
      rw [Node.isSteady_cons hc]
      simp only [hrate, false_and, iff_false]
      omega
    cases hrate : rate n i with
    | never => exact hnone (by rw [hrate]; rfl) (by simp [hrate])
    | atMostOnce => exact hnone (by rw [hrate]; exact Nat.zero_le 1) (by simp [hrate])
    | atLeastOnce => exact htwice (by rw [hrate]; exact Nat.le_succ 1) (by simp [hrate])
    | anyNumber => exact htwice (by rw [hrate]; trivial) (by simp [hrate])
    | once =>
      refine ⟨k, ⟨c, 1, hc, by rw [hrate]; rfl, total_one.mpr hk⟩, ?_⟩
      rw [Node.isSteady_cons hc, hsteady]
      simp [hrate]

/-- A part is evaluated exactly once if and only if every step on the way to it is steady. -/
theorem evaluatedOnce_iff_isSteady (h : n.part? p = some m) : EvaluatedOnce n p ↔ n.isSteady p := by
  constructor
  · intro honce
    obtain ⟨k, hk, hsteady⟩ := exists_evaluated h
    exact hsteady.mp (honce k hk)
  · exact evaluatedOnce_of_isSteady

end ObjcLowering.Ast
