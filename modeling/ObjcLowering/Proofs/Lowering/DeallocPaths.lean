import ObjcLowering.Lowering.Dealloc
import ObjcLowering.Proofs.Lowering.StoreOwnership
import ObjcLowering.Proofs.Target.Paths

/-! Ways through a written `dealloc`. -/

namespace ObjcLowering.Lowering

open Ast Code Behavior

theorem pathsAll_release (depth : Nat) (root : String) (values : List String) :
    pathsAll (values.map (.release depth root)) t o x ↔ t = values.map .release ∧ o = [] ∧ x = .next := by
  induction values generalizing t o x with
  | nil => exact ⟨fun h => by cases h; exact ⟨rfl, rfl, rfl⟩, fun ⟨ht, ho, hx⟩ => by subst ht ho hx; exact .intro⟩
  | cons value values ih =>
    rw [List.map_cons, pathsAll]
    constructor
    · intro h
      cases h with
      | both hfirst hrest =>
        cases hfirst
        obtain ⟨rfl, rfl, rfl⟩ := ih.mp hrest
        exact ⟨rfl, rfl, rfl⟩
      | left hfirst hx =>
        cases hfirst
        exact absurd rfl hx
    · rintro ⟨rfl, rfl, rfl⟩
      exact Chain.both Single.intro (ih.mpr ⟨rfl, rfl, rfl⟩)

def ivarPlaces (cls : ClassDecl) : List String := (strongIvars cls).map fun v => s!"self->{v.name}"

theorem pathsAll_epilogue : pathsAll (releaseIvars env ++ [deallocTail env]) t o x ↔
    t = (ivarPlaces env.cls).map .release ∧ o = [] ∧ x = .next := by
  have hreleases : releaseIvars env = (ivarPlaces env.cls).map (.release 1 env.root) := by
    rw [releaseIvars, ivarPlaces, List.map_map]
    rfl
  have htail : paths (deallocTail env) = Jump .next := by
    unfold deallocTail
    split <;> rw [paths]
  rw [hreleases, pathsAll_append]
  constructor
  · intro h
    cases h with
    | both hfront hlast =>
      obtain ⟨rfl, rfl, -⟩ := (pathsAll_release ..).mp hfront
      rw [pathsAll_singleton, htail] at hlast
      cases hlast
      exact ⟨List.append_nil _, rfl, rfl⟩
    | left hfront hx => exact absurd ((pathsAll_release ..).mp hfront).2.2 hx
  · rintro ⟨rfl, rfl, rfl⟩
    have hlast : pathsAll [deallocTail env] [] [] .next := by
      rw [pathsAll_singleton, htail]
      exact .intro
    simpa using Chain.both ((pathsAll_release 1 env.root (ivarPlaces env.cls)).mpr ⟨rfl, rfl, rfl⟩) hlast

/-- The statements of a written `dealloc`, but for messages to `super` among them, lowered outside of any
scope. -/
def DeallocBody (m : Method) (env : Env) (s : State) (code : List Code) : Prop :=
  match m.body with
  | none => code = []
  | some body => ∃ stmts t,
    (body.children >>= List.filterM fun n => do return !(← isSuperDealloc n)) = .ok stmts ∧
      Yields (lowerAll (lowerStmt 1) stmts) { env with method := some m }
        { s with scopes := [], consumed := [], locks := 0 } code t

def returning : Method :=
  { selector := "dealloc", returnType := ⟨"void"⟩
    body := some (.bare "CompoundStmt" [.bare "ReturnStmt" []]) }

end ObjcLowering.Lowering
