import ObjcLowering.Proofs.Lowering.StoreOwnership

/-!
Variables are told apart by their spelling, so one that shares its name with a variable given away before
is not released.
-/

namespace ObjcLowering.Lowering

open Ast

variable {s s' t : State}

/-- `{ T x; }` -/
def localBlock (name type : String) : Node := .bare "CompoundStmt" [.varStmt name type []]

def localCode (depth : Nat) (root name type : String) (isReleased : Bool) : List Code :=
  [.block depth (.declare (depth + 1) name ((SourceType.mk (.text type)).declare (.text name))
    :: if isReleased then [.release (depth + 1) root name] else [])]

theorem localCode_injective {root name : String}
    (h : localCode depth root name type a = localCode depth root name type b) : a = b := by
  cases a <;> cases b <;> simp_all [localCode]

theorem declared_local (hself : x ≠ "self") (htype : (SourceType.mk (.text type)).isStrongObject = true)
    (hscopes : s.scopes = [] :: t.scopes)
    (h : Yields (lowerVarDecl (level k).expr depth (.varDecl x type [])) env s code s') :
    code = [.declare depth x ((SourceType.mk (.text type)).declare (.text x))] ∧
      s'.scopes = [.text x] :: t.scopes ∧ s'.consumed = s.consumed := by
  have htyped : declaredType (.varDecl x type []) = .ok ⟨.text type⟩ := rfl
  have howner : isOwner (.varDecl x type []) ⟨.text type⟩ = true := by
    have hname : (Json.text x != "self") = true := by simpa using hself
    simp only [isOwner, htype, Bool.true_and]
    exact Bool.and_eq_true_iff.mpr ⟨hname, rfl⟩
  cases declared_of_yields h with
  | shared hshared => cases hshared
  | value _ _ hinit _ _ => cases hinit
  | bare _ hdeclared _ =>
    cases hdeclared.symm.trans htyped
    rw [State.declaring, if_pos howner, State.track, hscopes]
    exact ⟨rfl, rfl, rfl⟩

theorem code_of_localBlock (hself : x ≠ "self") (htype : (SourceType.mk (.text type)).isStrongObject = true)
    (h : Yields (lowerStmtKind (level (k + 1)) depth (localBlock x type)) env s code s') :
    code = localCode depth env.root x type (!s.consumed.contains (.text x)) := by
  obtain ⟨inside, hinside, rfl⟩ := yields_bind_pure.mp h
  obtain ⟨body, t, hbody, -, rfl⟩ := entered_of_yields hinside
  obtain ⟨first, u, rest, hfirst, hrest, rfl⟩ := yields_lowerAll_cons.mp hbody
  obtain ⟨rfl, rfl⟩ := yields_lowerAll_nil.mp hrest
  have hstmt := lowerStmtKind_of_unexpanded (unexpanded_bare _ _) hfirst
  replace hstmt := yields_bind_children hstmt
  obtain ⟨decl, v, none, hdecl, hnone, rfl⟩ := yields_lowerAll_cons.mp hstmt
  obtain ⟨rfl, rfl⟩ := yields_lowerAll_nil.mp hnone
  obtain ⟨rfl, hscopes, hconsumed⟩ := declared_local (t := s) hself htype rfl hdecl
  have hends : endsInReturn (localBlock x type).inner = false := rfl
  have howned : t.owned [.text x] = if !s.consumed.contains (.text x) then [.text x] else [] := by
    rw [State.owned, hconsumed, List.filter_cons, List.filter_nil]
    rfl
  rw [exitCode, hends, if_neg (by decide), hscopes, List.headD_cons, howned, localCode]
  cases s.consumed.contains (.text x) <;> rfl

/-- `{ { id x; _i = x; } { id y; } }` -/
def siblings (y : String) : Node :=
  .bare "CompoundStmt" [
    .bare "CompoundStmt" [.varStmt "x" "id" [], assignTo (ivarRef "_i") (.varRef "x" "id")],
    localBlock y "id"]

end ObjcLowering.Lowering
