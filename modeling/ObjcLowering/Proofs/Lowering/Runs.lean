import Mathlib.Data.List.Forall2
import ObjcLowering.Lowering.Bodies
import ObjcLowering.Proofs.Nodes

/-! Runs of the lowering. -/

namespace ObjcLowering.Lowering

open Ast

section

variable {ρ σ ε : Type} {α β : Type} {env : ρ} {s t s' : σ}

theorem ok_pair_eq_ok {x r : α} : (.ok (x, t) : Except ε (α × σ)) = .ok (r, s') ↔ r = x ∧ s' = t := by
  constructor
  · intro h
    cases h
    exact ⟨rfl, rfl⟩
  · rintro ⟨rfl, rfl⟩
    rfl

theorem ok_unit_eq_ok {r : Unit} : (.ok (⟨⟩, t) : Except ε (Unit × σ)) = .ok (r, s') ↔ s' = t :=
  ok_pair_eq_ok.trans (and_iff_right rfl)

theorem run_bind_eq_ok {a : ReaderT ρ (StateT σ (Except ε)) α} {f : α → ReaderT ρ (StateT σ (Except ε)) β} :
    ((a >>= f).run env).run s = .ok (r, s') ↔
      ∃ x t, (a.run env).run s = .ok (x, t) ∧ ((f x).run env).run t = .ok (r, s') := by
  rw [ReaderT.run_bind, StateT.run_bind]
  cases h : (a.run env).run s with
  | error e => simp [bind, Except.bind]
  | ok p =>
    obtain ⟨x, t⟩ := p
    constructor
    · intro hf
      exact ⟨x, t, rfl, hf⟩
    · rintro ⟨y, u, hy, hf⟩
      cases hy
      exact hf

theorem run_liftM_eq_ok {e : Except ε α} :
    ((liftM e : ReaderT ρ (StateT σ (Except ε)) α).run env).run s = .ok (r, s') ↔ e = .ok r ∧ s' = s := by
  cases e with
  | error f =>
    constructor
    · intro h
      cases h
    · rintro ⟨h, -⟩
      cases h
  | ok x => exact ok_pair_eq_ok.trans (and_congr_left' ⟨fun h => h ▸ rfl, fun h => (Except.ok.inj h).symm⟩)

end

/-- The computation ends with the result `r` in the state `s'`. -/
def Yields (a : Lower α) (env : Env) (s : State) (r : α) (s' : State) : Prop :=
  (a.run env).run s = .ok (r, s')

@[simp] theorem yields_pure : Yields (pure x) env s r s' ↔ r = x ∧ s' = s := ok_pair_eq_ok

theorem yields_bind : Yields (a >>= f) env s r s' ↔ ∃ x t, Yields a env s x t ∧ Yields (f x) env t r s' :=
  run_bind_eq_ok

@[simp] theorem yields_liftM {e : Except Fault α} :
    Yields (liftM e : Lower α) env s r s' ↔ e = .ok r ∧ s' = s := run_liftM_eq_ok

@[simp] theorem yields_throw : ¬ Yields (throw f : Lower α) env s r s' := by
  intro h
  cases h

@[simp] theorem yields_read : Yields read env s r s' ↔ r = env ∧ s' = s := ok_pair_eq_ok

@[simp] theorem yields_get : Yields get env s r s' ↔ r = s ∧ s' = s := ok_pair_eq_ok

@[simp] theorem yields_modify : Yields (modify f) env s r s' ↔ s' = f s := ok_unit_eq_ok

@[simp] theorem yields_fail_pure {x : α} : Yields (do fail message; return x) env s r s' ↔
    r = x ∧ s' = { s with errors := s.errors ++ [message] } := ok_pair_eq_ok

@[simp] theorem yields_pure_bind : Yields (pure x >>= f) env s r s' ↔ Yields (f x) env s r s' := Iff.rfl

theorem yields_bind_pure {g : α → β} :
    Yields (a >>= fun x => pure (g x)) env s r s' ↔ ∃ x, Yields a env s x s' ∧ r = g x := by
  simp only [yields_bind, yields_pure]
  constructor
  · rintro ⟨x, _, hx, rfl, rfl⟩
    exact ⟨x, hx, rfl⟩
  · rintro ⟨x, hx, rfl⟩
    exact ⟨x, s', hx, rfl, rfl⟩

@[simp] theorem yields_liftM_bind {e : Except Fault α} :
    Yields (liftM e >>= f) env s r s' ↔ ∃ x, e = .ok x ∧ Yields (f x) env s r s' := by
  simp [yields_bind, and_assoc]

theorem yields_bind_children {n : Node}
    (h : Yields (liftM n.children >>= f) env s r s') : Yields (f n.inner) env s r s' := by
  obtain ⟨ns, hns, h⟩ := yields_liftM_bind.mp h
  rwa [Node.children_eq_ok hns] at h

@[simp] theorem yields_read_bind : Yields (read >>= f) env s r s' ↔ Yields (f env) env s r s' := Iff.rfl

@[simp] theorem yields_get_bind : Yields (get >>= f) env s r s' ↔ Yields (f s) env s r s' := Iff.rfl

@[simp] theorem yields_set_bind : Yields (set t >>= f) env s r s' ↔ Yields (f ⟨⟩) env t r s' := Iff.rfl

@[simp] theorem yields_modify_bind :
    Yields (modify g >>= f) env s r s' ↔ Yields (f ⟨⟩) env (g s) r s' := Iff.rfl

@[simp] theorem yields_discard : Yields (discard a) env s r s' ↔ ∃ x, Yields a env s x s' := by
  have h : (discard a : Lower Unit) = a >>= fun _ => pure () := rfl
  rw [h, yields_bind]
  constructor
  · rintro ⟨x, t, hx, ht⟩
    obtain ⟨-, rfl⟩ := yields_pure.mp ht
    exact ⟨x, hx⟩
  · rintro ⟨x, hx⟩
    exact ⟨x, s', hx, yields_pure.mpr ⟨rfl, rfl⟩⟩

@[simp] theorem yields_mapM_nil : Yields ([].mapM f) env s r s' ↔ r = [] ∧ s' = s := by
  rw [List.mapM_nil, yields_pure]

theorem yields_mapM_cons : Yields ((x :: xs).mapM f) env s r s' ↔
      ∃ y t ys, Yields (f x) env s y t ∧ Yields (xs.mapM f) env t ys s' ∧ r = y :: ys := by
  simp only [List.mapM_cons, yields_bind, yields_pure]
  constructor
  · rintro ⟨y, t, hy, ys, u, hys, rfl, rfl⟩
    exact ⟨y, t, ys, hy, hys, rfl⟩
  · rintro ⟨y, t, ys, hy, hys, rfl⟩
    exact ⟨y, t, hy, ys, s', hys, rfl, rfl⟩

theorem yields_mapM_append {xs ys : List α} : Yields ((xs ++ ys).mapM f) env s r s' ↔
      ∃ rs t rs', Yields (xs.mapM f) env s rs t ∧ Yields (ys.mapM f) env t rs' s' ∧ r = rs ++ rs' := by
  rw [List.mapM_append, yields_bind]
  simp only [yields_bind, yields_pure]
  constructor
  · rintro ⟨rs, t, hrs, rs', u, hrs', rfl, rfl⟩
    exact ⟨rs, t, rs', hrs, hrs', rfl⟩
  · rintro ⟨rs, t, rs', hrs, hrs', rfl⟩
    exact ⟨rs, t, hrs, rs', s', hrs', rfl, rfl⟩

theorem forall₂_of_yields_mapM (h : Yields (xs.mapM f) env s ys s') :
    List.Forall₂ (fun x y => ∃ u u', Yields (f x) env u y u') xs ys := by
  induction xs generalizing s ys with
  | nil =>
    obtain ⟨rfl, -⟩ := yields_mapM_nil.mp h
    exact .nil
  | cons x xs ih =>
    obtain ⟨y, u, ys, hy, hys, rfl⟩ := yields_mapM_cons.mp h
    exact .cons ⟨s, u, hy⟩ (ih hys)

@[simp] theorem yields_lowerAll_nil : Yields (lowerAll f []) env s code s' ↔ code = [] ∧ s' = s := by
  simp only [lowerAll, List.mapM_nil, yields_pure_bind, yields_pure, List.flatten_nil]

theorem yields_lowerAll_cons : Yields (lowerAll f (n :: ns)) env s code s' ↔
      ∃ c t d, Yields (f n) env s c t ∧ Yields (lowerAll f ns) env t d s' ∧ code = c ++ d := by
  simp only [lowerAll, yields_bind, yields_mapM_cons, yields_pure]
  constructor
  · rintro ⟨_, _, ⟨c, t, cs, hc, hcs, rfl⟩, rfl, rfl⟩
    exact ⟨c, t, cs.flatten, hc, ⟨cs, _, hcs, rfl, rfl⟩, by simp⟩
  · rintro ⟨c, t, _, hc, ⟨cs, _, hcs, rfl, rfl⟩, rfl⟩
    exact ⟨_, _, ⟨c, t, cs, hc, hcs, rfl⟩, by simp, rfl⟩

/-- A relation between the states before and after a run, which holds along whatever is done in order
to write an expression: noting messages, numbering and declaring temporaries, defining constants and
functions of the file. -/
structure Frame where
  rel : State → State → Prop
  refl : ∀ s, rel s s
  trans : ∀ {s t u}, rel s t → rel t u → rel s u
  warn : ∀ s text, rel s { s with diagnostics := s.diagnostics ++ [text] }
  fail : ∀ s text, rel s { s with errors := s.errors ++ [text] }
  temp : ∀ s, rel s { s with temps := s.temps + 1 }
  pending : ∀ s decl, rel s { s with pending := s.pending ++ [decl] }
  literal : ∀ s text name definition,
    rel s { s with literals := s.literals.set text name, strings := s.strings ++ [definition] }
  block : ∀ s text, rel s { s with blocks := s.blocks ++ [text] }

namespace Frame

variable (F : Frame)

def Keeps (a : Lower α) : Prop := ∀ env s r s', Yields a env s r s' → F.rel s s'

variable {F}

theorem keeps_pure : F.Keeps (pure x : Lower α) := by
  intro env s r s' h
  obtain ⟨-, rfl⟩ := yields_pure.mp h
  exact F.refl _

theorem keeps_bind (ha : F.Keeps a) (hf : ∀ x, F.Keeps (f x)) : F.Keeps (a >>= f) := by
  intro env s r s' h
  obtain ⟨x, t, hx, hr⟩ := yields_bind.mp h
  exact F.trans (ha env s x t hx) (hf x env t r s' hr)

theorem keeps_liftM {e : Except Fault α} : F.Keeps (liftM e : Lower α) := by
  intro env s r s' h
  obtain ⟨-, rfl⟩ := yields_liftM.mp h
  exact F.refl _

theorem keeps_bind_liftM {e : Except Fault α}
    (hf : ∀ x, e = .ok x → F.Keeps (f x)) : F.Keeps (liftM e >>= f) := by
  intro env s r s' h
  obtain ⟨x, hx, hr⟩ := yields_liftM_bind.mp h
  exact hf x hx env s r s' hr

theorem keeps_bind_children {n : Node} (hf : F.Keeps (f n.inner)) : F.Keeps (liftM n.children >>= f) := by
  refine keeps_bind_liftM fun ns hns => ?_
  rw [Node.children_eq_ok hns]
  exact hf

theorem keeps_throw : F.Keeps (throw f : Lower α) := by
  intro env s r s' h
  exact absurd h yields_throw

theorem keeps_read : F.Keeps read := by
  intro env s r s' h
  obtain ⟨-, rfl⟩ := yields_read.mp h
  exact F.refl _

theorem keeps_modify (hf : ∀ s, F.rel s (f s)) : F.Keeps (modify f) := by
  intro env s r s' h
  rw [yields_modify.mp h]
  exact hf s

theorem keeps_mapM {xs : List α} (hf : ∀ x ∈ xs, F.Keeps (f x)) : F.Keeps (xs.mapM f) := by
  induction xs with
  | nil => exact keeps_pure
  | cons x xs ih =>
    rw [List.mapM_cons]
    apply keeps_bind (hf x (by simp))
    intro y
    apply keeps_bind (ih fun z hz => hf z (by simp [hz]))
    intro ys
    exact keeps_pure

theorem keeps_root : F.Keeps root := keeps_bind keeps_read fun _ => keeps_pure

theorem keeps_warn : F.Keeps (Lowering.warn text) := keeps_modify fun s => F.warn s text

end Frame

def Env.sample : Env := { cls := { name := "Foo" }, module := {}, root := "OZObject" }

end ObjcLowering.Lowering
