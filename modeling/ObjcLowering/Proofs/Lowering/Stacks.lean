import ObjcLowering.Proofs.Lowering.ExpressionFrames

/-!
Expressions leave the stacks of scopes and loops alone, and only an explicit release gives a reference
away.
-/

namespace ObjcLowering.Lowering

open Ast Lowering.Frame

def stacksFrame : Frame where
  rel s s' := s'.scopes = s.scopes ∧ s'.loops = s.loops ∧ s'.locks = s.locks
  refl _ := ⟨rfl, rfl, rfl⟩
  trans h h' := ⟨h'.1.trans h.1, h'.2.1.trans h.2.1, h'.2.2.trans h.2.2⟩
  warn _ _ := ⟨rfl, rfl, rfl⟩
  fail _ _ := ⟨rfl, rfl, rfl⟩
  temp _ := ⟨rfl, rfl, rfl⟩
  pending _ _ := ⟨rfl, rfl, rfl⟩
  literal _ _ _ _ := ⟨rfl, rfl, rfl⟩
  block _ _ := ⟨rfl, rfl, rfl⟩

def ownershipFrame : Frame where
  rel s s' := stacksFrame.rel s s' ∧ s'.consumed = s.consumed
  refl s := ⟨stacksFrame.refl s, rfl⟩
  trans h h' := ⟨stacksFrame.trans h.1 h'.1, h'.2.trans h.2⟩
  warn s text := ⟨stacksFrame.warn s text, rfl⟩
  fail s text := ⟨stacksFrame.fail s text, rfl⟩
  temp s := ⟨stacksFrame.temp s, rfl⟩
  pending s decl := ⟨stacksFrame.pending s decl, rfl⟩
  literal s text name definition := ⟨stacksFrame.literal s text name definition, rfl⟩
  block s text := ⟨stacksFrame.block s text, rfl⟩

theorem Frame.Keeps.mono {F G : Frame} (h : F.Keeps a) (hFG : ∀ s s', F.rel s s' → G.rel s s') : G.Keeps a :=
  fun env s r s' hr => hFG s s' (h env s r s' hr)

theorem ownershipFrame_keeps_asOwnFunction : ownershipFrame.Keeps (asOwnFunction a) := by
  intro env s r s' h
  simp only [asOwnFunction, yields_get_bind, yields_set_bind] at h
  obtain ⟨x, t, -, h⟩ := yields_bind.mp h
  rw [yields_modify_bind, yields_pure] at h
  rw [h.2]
  exact ⟨⟨rfl, rfl, rfl⟩, rfl⟩

@[simp] theorem State.consume_scopes (s : State) (name : Name) :
    (s.consume name).scopes = s.scopes := by
  unfold State.consume
  split <;> rfl

@[simp] theorem State.consume_loops (s : State) (name : Name) :
    (s.consume name).loops = s.loops := by
  unfold State.consume
  split <;> rfl

@[simp] theorem State.consume_locks (s : State) (name : Name) :
    (s.consume name).locks = s.locks := by
  unfold State.consume
  split <;> rfl

theorem level_expr_keeps_stacks (k : Nat) (n : Node) : stacksFrame.Keeps ((level k).expr n) := by
  induction k generalizing n with
  | zero => exact keeps_throw
  | succ k ih =>
    apply keeps_exprStep
    · intro _ _ s name
      exact ⟨by simp, by simp, by simp⟩
    · intro body
      exact ownershipFrame_keeps_asOwnFunction.mono fun _ _ h => h.1
    · intro m _
      exact ih m

def NoRelease (n : Node) : Prop :=
  ∀ m ∈ n.preorder, m.kind = "ObjCMessageExpr" → m.selector ≠ "release"

theorem NoRelease.of_mem (h : NoRelease n) (hm : m ∈ n.preorder) : NoRelease m :=
  fun l hl => h l (Node.preorder_subset_of_preorder n hm hl)

theorem level_expr_keeps_ownership (k : Nat) (h : NoRelease n) : ownershipFrame.Keeps ((level k).expr n) := by
  induction k generalizing n with
  | zero => exact keeps_throw
  | succ k ih =>
    apply keeps_exprStep
    · intro hkind hselector
      exact absurd hselector (h n (Node.mem_preorder_self n) hkind)
    · intro body
      exact ownershipFrame_keeps_asOwnFunction
    · intro m hm
      exact ih (h.of_mem hm)

end ObjcLowering.Lowering
