import ObjcLowering.Proofs.Lowering.StatementFrames

/-!
The stacks are kept in order, whatever is lowered.
-/

namespace ObjcLowering.Lowering

open Ast Lowering.Frame

def scopedKinds : List String :=
  ["CompoundStmt", "ObjCAtSynchronizedStmt", "ObjCForCollectionStmt", "ObjCAutoreleasePoolStmt"]

theorem Lowered.keeps_scopes (hkind : n.kind ∈ scopedKinds)
    (h : Lowered (level k) env depth n s code s') : GrowsBy [] s s' := by
  have hb := disciplined_level k
  cases h with
  | nothing => exact .of_eq rfl rfl
  | block _ h => exact scopes_lowerScope hb _ _ _ _ h
  | lock _ _ hobject hlock => exact hlock.grows hb (hb.expr _ _ _ _ _ hobject)
  | forIn _ _ _ _ hcollection hbody => exact growsBy_items hb (hb.expr _ _ _ _ _ hcollection) hbody
  | expr hnot _ _ =>
    have hall : ∀ kind ∈ scopedKinds, kind ∈ controlKinds := by decide
    exact absurd (hall _ hkind) hnot
  | _ => simp_all [scopedKinds]

theorem scopes_level_stmt (hkind : n.kind ∈ scopedKinds) : scopesFrame.Keeps ((level k).stmt depth n) := by
  cases k with
  | zero => exact keeps_throw
  | succ k =>
    intro env s code s' h
    obtain ⟨text, rfl, hcopy⟩ | ⟨t, hcopy, hlowered⟩ := copied_or_lowered_of_yields h
    · exact growsBy_of_stacks (stacks_copyStmt _ _ _ _ hcopy)
    · exact (growsBy_of_stacks (stacks_copyStmt _ _ _ _ hcopy)).trans (hlowered.keeps_scopes hkind)

theorem isPrefix_addNew (top : List Name) (name : Name) : top <+: addNew top name := by
  unfold addNew
  split
  · exact List.prefix_rfl
  · exact List.prefix_append top [name]

theorem isPrefix_addAllNew (top names : List Name) : top <+: addAllNew top names := by
  induction names generalizing top with
  | nil => exact List.prefix_rfl
  | cons name names ih => exact (isPrefix_addNew top name).trans (ih _)

theorem GrowsBy.innermost (h : GrowsBy names s s') :
    s'.loops = s.loops ∧ s'.scopes.length = s.scopes.length ∧ s'.scopes.tail = s.scopes.tail ∧
      s.scopes.headD [] <+: s'.scopes.headD [] := by
  refine ⟨h.1, by rw [h.2, length_trackAll], by rw [h.2, tail_trackAll], ?_⟩
  rw [h.2]
  cases s.scopes with
  | nil => exact List.prefix_rfl
  | cons top rest => exact isPrefix_addAllNew top names

/-- Expressions, insides of compound statements and the statements with a scope of their own leave the
scopes as they were. Any other statement leaves the loops, the number of scopes and all scopes but the
innermost alone, and adds variables to the innermost. -/
theorem lowering_keeps_stacks (env : Env) (s s' : State) (depth : Nat) (n : Node) :
    (∀ text, Yields (lowerExpr n) env s text s' → s'.scopes = s.scopes ∧ s'.loops = s.loops) ∧
    (∀ params code, Yields (lowerCompound depth params n) env s code s' →
      s'.scopes = s.scopes ∧ s'.loops = s.loops) ∧
    (∀ code, Yields (lowerStmt depth n) env s code s' →
      (n.kind ∈ scopedKinds → s'.scopes = s.scopes) ∧
      s'.loops = s.loops ∧ s'.scopes.length = s.scopes.length ∧ s'.scopes.tail = s.scopes.tail ∧
      s.scopes.headD [] <+: s'.scopes.headD []) := by
  refine ⟨fun text h => ?_, fun params code h => ?_, fun code h => ⟨fun hkind => ?_, ?_⟩⟩
  · obtain ⟨hscopes, hloops, -⟩ := level_expr_keeps_stacks _ _ _ _ _ _ h
    exact ⟨hscopes, hloops⟩
  · have hgrows : GrowsBy [] s s' := scopes_lowerScope (disciplined_level _) _ _ _ _ h
    exact ⟨hgrows.2.trans (trackAll_nil _), hgrows.1⟩
  · have hgrows : GrowsBy [] s s' := scopes_level_stmt hkind _ _ _ _ h
    exact hgrows.2.trans (trackAll_nil _)
  · obtain ⟨names, hgrows⟩ := (disciplined_level n.depth).stmt depth n _ _ _ _ h
    exact hgrows.innermost

def State.inLoop : State := { scopes := [["a"], ["b"]], loops := [1] }

theorem block_keeps_stacks :
    Yields (lowerExpr (.varRef "a" "id")) .sample .inLoop "a" .inLoop ∧
    Yields (lowerCompound 1 [] (.bare "CompoundStmt" [.varStmt "x" "id" []])) .sample .inLoop
      [.declare 2 "x" "struct OZObject * x", .release 2 "OZObject" "x"] .inLoop ∧
    Yields (lowerStmt 1 (.varStmt "x" "id" [])) .sample .inLoop
      [.declare 1 "x" "struct OZObject * x"] { scopes := [["a", "x"], ["b"]], loops := [1] } ∧
    (["a"] : List Name) <+: ["a", "x"] := by
  have hexpr : Yields (lowerExpr (.varRef "a" "id")) .sample .inLoop "a" .inLoop := rfl
  have hblock : Yields (lowerCompound 1 [] (.bare "CompoundStmt" [.varStmt "x" "id" []])) .sample
      .inLoop [.declare 2 "x" "struct OZObject * x", .release 2 "OZObject" "x"] .inLoop := rfl
  have hstmt : Yields (lowerStmt 1 (.varStmt "x" "id" [])) .sample .inLoop
      [.declare 1 "x" "struct OZObject * x"] { scopes := [["a", "x"], ["b"]], loops := [1] } := rfl
  exact ⟨hexpr, hblock, hstmt, ((lowering_keeps_stacks _ _ _ _ _).2.2 _ hstmt).2.2.2.2⟩

end ObjcLowering.Lowering
