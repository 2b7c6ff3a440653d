import ObjcLowering.Proofs.Lowering.OwnTexts
import ObjcLowering.Proofs.Lowering.TempScopes
import ObjcLowering.Proofs.Tables

/-! The queue of generated variables. -/

namespace ObjcLowering.Lowering

open Ast List

structure NumberedFrom (low high : Nat) (names : List String) : Prop where
  le : low ≤ high
  nodup : names.Nodup
  exists_number : ∀ w ∈ names, ∃ kind k, w = TempKind.nameOf kind k ∧ low ≤ k ∧ k < high

namespace NumberedFrom

theorem nil (h : low ≤ high) : NumberedFrom low high [] := ⟨h, .nil, by simp⟩

theorem one (kind : TempKind) (k : Nat) : NumberedFrom k (k + 1) [kind.nameOf k] where
  le := Nat.le_succ k
  nodup := nodup_singleton _
  exists_number _ hw := ⟨kind, k, mem_singleton.mp hw, Nat.le_refl k, Nat.lt_succ_self k⟩

theorem append (h : NumberedFrom low mid names) (h' : NumberedFrom mid high others) :
    NumberedFrom low high (names ++ others) where
  le := h.le.trans h'.le
  nodup := by
    refine nodup_append.mpr ⟨h.nodup, h'.nodup, fun w hw w' hw' heq => ?_⟩
    obtain ⟨kind, k, hk, -, hlt⟩ := h.exists_number w hw
    obtain ⟨kind', k', hk', hle, -⟩ := h'.exists_number w' hw'
    have hnumber : k = k' := nameOf_injective (hk.symm.trans (heq.trans hk'))
    omega
  exists_number w hw := by
    rcases mem_append.mp hw with hw | hw
    · obtain ⟨kind, k, hk, hle, hlt⟩ := h.exists_number w hw
      exact ⟨kind, k, hk, hle, Nat.lt_of_lt_of_le hlt h'.le⟩
    · obtain ⟨kind, k, hk, hle, hlt⟩ := h'.exists_number w hw
      exact ⟨kind, k, hk, Nat.le_trans h.le hle, hlt⟩

theorem perm (h : NumberedFrom low high names) (hperm : names.Perm others) :
    NumberedFrom low high others where
  le := h.le
  nodup := hperm.nodup_iff.mp h.nodup
  exists_number w hw := h.exists_number w (hperm.mem_iff.mpr hw)

end NumberedFrom

/-- The text of the function for a block, with the variables that its body generates: those that are
declared in its code, and those that are left in the queue at its end. -/
inductive BlockFunction (env : Env) : String → List TempDecl → Prop
  | empty (head : String) :
      BlockFunction env (Text.trimRightBy (· == '\n') (head ++ (Code.block 0 []).render)) []
  | body (head : String) : s.pending = [] →
      Yields (lowerFunctionBody (level k) [] body) env s code s' →
      BlockFunction env (Text.trimRightBy (· == '\n') (head ++ code.render))
        (code.tempDecls ++ s'.pending)

/-- Between two states, the variables `ds` have been queued, of which `out` have been taken out of the
queue, and the functions for some blocks have been made; all variables that have been generated have
numbers of their own. -/
structure Adds (env : Env) (out : List TempDecl) (s s' : State) (ds : List TempDecl)
    (made : List (String × List TempDecl)) : Prop where
  pending : out ++ s'.pending = s.pending ++ ds
  blocks : s'.blocks = s.blocks ++ made.map (·.1)
  functions : ∀ f ∈ made, BlockFunction env f.1 f.2
  numbered : NumberedFrom s.temps s'.temps (declared (ds ++ made.flatMap (·.2)))

namespace Adds

theorem nothing (hpending : s'.pending = s.pending) (hblocks : s'.blocks = s.blocks)
    (htemps : s.temps ≤ s'.temps) : Adds env [] s s' [] [] where
  pending := by simp [hpending]
  blocks := by simp [hblocks]
  functions := by simp
  numbered := .nil htemps

theorem trans (h : Adds env out s t ds made) (h' : Adds env out' t s' es made') :
    Adds env (out ++ out') s s' (ds ++ es) (made ++ made') where
  pending := by rw [append_assoc, h'.pending, ← append_assoc, h.pending, append_assoc]
  blocks := by rw [h'.blocks, h.blocks, map_append, append_assoc]
  functions f hf := (mem_append.mp hf).elim (h.functions f) (h'.functions f)
  numbered := by
    refine (h.numbered.append h'.numbered).perm ?_
    simp only [declared_append, flatMap_append, append_assoc]
    refine Perm.append_left _ ?_
    rw [← append_assoc, ← append_assoc]
    exact Perm.append_right _ perm_append_comm

end Adds

/-- No name that has been given to a constant of the file or is that of a variable of an open scope
looks like a generated one. -/
structure Discreet (s : State) : Prop where
  literals : ∀ literal name, s.literals.find? literal = some name → tempsIn name = []
  scopes : ∀ name ∈ s.scopes.flatten, tempsIn name.plain = []

structure SameTemps (s s' : State) : Prop where
  pending : s'.pending = s.pending
  blocks : s'.blocks = s.blocks
  temps : s'.temps = s.temps

structure Steady (s s' : State) : Prop extends SameTemps s s' where
  literals : s'.literals = s.literals
  scopes : s'.scopes = s.scopes

theorem Steady.refl (s : State) : Steady s s := ⟨⟨rfl, rfl, rfl⟩, rfl, rfl⟩

theorem Discreet.of_eq (h : Discreet s) (hliterals : s'.literals = s.literals) (hscopes : s'.scopes = s.scopes) :
    Discreet s' where
  literals := by
    rw [hliterals]
    exact h.literals
  scopes := by
    rw [hscopes]
    exact h.scopes

theorem Steady.discreet (h : Steady s s') (hs : Discreet s) : Discreet s' := hs.of_eq h.literals h.scopes

theorem SameTemps.adds (h : SameTemps s s') : Adds env [] s s' [] [] :=
  .nothing h.pending h.blocks h.temps.ge

structure Grows (env : Env) (s s' : State) : Prop where
  discreet : Discreet s'
  adds : ∃ ds made, Adds env [] s s' ds made ∧ InOrder (declared s.pending) ds

theorem Steady.grows (h : Steady s s') (hs : Discreet s) : Grows env s s' :=
  ⟨h.discreet hs, [], [], h.toSameTemps.adds, trivial⟩

namespace Grows

theorem refl (hs : Discreet s) : Grows env s s := (Steady.refl s).grows hs

theorem trans (h : Grows env s t) (h' : Grows env t s') : Grows env s s' := by
  obtain ⟨ds, made, hadds, hordered⟩ := h.adds
  obtain ⟨es, made', hadds', hordered'⟩ := h'.adds
  have hpending : t.pending = s.pending ++ ds := hadds.pending
  refine ⟨h'.discreet, ds ++ es, made ++ made', hadds.trans hadds', hordered.append ?_⟩
  rwa [← declared_append, ← hpending]

theorem subset (h : Grows env s s') : declared s.pending ⊆ declared s'.pending := by
  obtain ⟨ds, made, hadds, -⟩ := h.adds
  have hpending : s'.pending = s.pending ++ ds := hadds.pending
  rw [hpending, declared_append]
  exact subset_append_left _ _

theorem declare {kind : TempKind}
    (h : Grows env { s with temps := s.temps + 1 } t) (hname : d.name = kind.nameOf s.temps)
    (hd : DeclaresFrom (declared t.pending) d) :
    Grows env s { t with pending := t.pending ++ [d] } := by
  obtain ⟨ds, made, hadds, hordered⟩ := h.adds
  have hpending : t.pending = s.pending ++ ds := hadds.pending
  refine ⟨h.discreet.of_eq rfl rfl, ds ++ [d], made, ⟨?_, hadds.blocks, hadds.functions, ?_⟩, ?_⟩
  · simp [hpending]
  · refine ((NumberedFrom.one kind s.temps).append hadds.numbered).perm ?_
    simp only [declared_append, declared_cons, hname, append_assoc, singleton_append]
    exact perm_middle.symm
  · refine hordered.append ⟨?_, trivial⟩
    rwa [hpending, declared_append] at hd

end Grows

abbrev Known (D : List String) (text : String) : Prop := tempsIn text ⊆ D

abbrev AllKnown (D : List String) (texts : List String) : Prop := ∀ text ∈ texts, tempsIn text ⊆ D

/-- Every run of the computation queues declarations in order, and its text mentions only variables
that are queued by then. -/
def Composes (env : Env) (a : Lower String) : Prop :=
  ∀ s text s', Discreet s → Yields a env s text s' → Grows env s s' ∧ Known (declared s'.pending) text

end ObjcLowering.Lowering
