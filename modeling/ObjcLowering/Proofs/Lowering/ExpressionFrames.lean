import ObjcLowering.Proofs.Lowering.ExpressionCases

/-!
Every way of writing an expression stays within a frame if its parts do, apart from explicit releases and
the functions of blocks.
-/

namespace ObjcLowering.Lowering

open Ast

variable {F : Frame} {n : Node}

theorem Noted.keeps (hrelease : n.kind = "ObjCMessageExpr" → n.selector = "release" →
      ∀ s name, F.rel s (s.consume name)) (h : Noted n s s') : F.rel s s' := by
  induction h with
  | nothing => exact F.refl s
  | warned text _ ih => exact F.trans ih (F.warn _ text)
  | failed text _ ih => exact F.trans ih (F.fail _ text)
  | consumed name hkind hselector _ ih => exact F.trans ih (hrelease hkind hselector _ name)

theorem Spells.keeps (hexpr : ∀ m ∈ n.preorder, F.Keeps (expr m))
    (h : Spells expr env n ps s texts s') : F.rel s s' := by
  induction h with
  | nil => exact F.refl _
  | cons hp htext _ ih => exact F.trans (hexpr _ (Node.mem_preorder_of_part hp) _ _ _ _ htext) ih

namespace Frame

theorem keeps_keptRef (h : F.Keeps (expr m)) : F.Keeps (keptRef expr m) := by
  refine keeps_bind keeps_root fun r => ?_
  exact keeps_bind h fun ref => keeps_pure

theorem keeps_exprStep (hrelease : n.kind = "ObjCMessageExpr" → n.selector = "release" →
      ∀ s name, F.rel s (s.consume name))
    (hown : ∀ body, F.Keeps (asOwnFunction (lowerFunctionBody below [] body)))
    (h : ∀ m ∈ n.preorder, F.Keeps (below.expr m)) : F.Keeps (exprStep below n) := by
  intro env s text s' hrun
  have hinner : ∀ m ∈ n.inner, F.Keeps (below.expr m) := fun m hm => h m (Node.mem_preorder_of_inner hm)
  cases expressed_of_yields hrun with
  | spelt _ hnoted hspells _ => exact F.trans (hnoted.keeps hrelease) (hspells.keeps h)
  | table _ _ _ _ hr _ hnoted hvalue hargs =>
    refine F.trans (hnoted.keeps hrelease) (F.trans (hinner _ (receiver?_mem hr) _ _ _ _ hvalue) ?_)
    refine F.trans (F.trans (F.temp _) (F.pending _ _)) (keeps_mapM (fun m hm => ?_) _ _ _ _ hargs)
    exact hinner m (List.mem_of_mem_tail hm)
  | collection _ _ hitems =>
    refine F.trans (F.temp s) (F.trans ?_ (F.pending _ _))
    exact keeps_mapM (fun m hm => keeps_keptRef (hinner m hm)) _ _ _ _ hitems
  | string _ hinterned =>
    cases hinterned with
    | known _ => exact F.refl _
    | new _ _ _ hnoted => exact F.trans (hnoted.keeps hrelease) (F.literal _ _ _ _)
  | block _ hdefined =>
    obtain ⟨-, hnoted, hbody⟩ := hdefined
    refine F.trans (hnoted.keeps hrelease) (F.trans ?_ (F.block _ _))
    rcases hbody with ⟨-, rfl⟩ | ⟨body, -, hbody⟩
    · exact F.refl _
    · exact hown body _ _ _ _ hbody

theorem keeps_copyStmt (h : ∀ m ∈ n.preorder, F.Keeps (expr m)) : F.Keeps (copyStmt? expr n) := by
  refine keeps_bind keeps_liftM fun use => ?_
  split
  · refine keeps_bind keeps_liftM fun ends => ?_
    split
    · exact keeps_pure
    · refine keeps_bind keeps_read fun env => ?_
      split
      · intro env s copy s' hcopy
        rcases copied_of_yields hcopy with ⟨-, rfl, -⟩ | ⟨_, _, _, -, -, hspells, -⟩
        · exact F.refl _
        · exact hspells.keeps h
      · exact keeps_bind keeps_warn fun _ => keeps_pure
  · exact keeps_pure

end Frame

end ObjcLowering.Lowering
