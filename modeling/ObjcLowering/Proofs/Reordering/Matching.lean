import Mathlib.Data.Option.Basic
import ObjcLowering.Proofs.Nodes
import ObjcLowering.Proofs.Tables

/-! Two runs side by side. -/

namespace ObjcLowering

open List

universe u v w

section Views

theorem map_eq_of_rel (h : Option.Rel R a b) (hfg : ∀ a b, R a b → f a = g b) : a.map f = b.map g := by
  cases h with
  | none => rfl
  | some hab => exact congrArg some (hfg _ _ hab)

theorem map_eq_of_forall₂
    (h : Forall₂ R xs ys) (hfg : ∀ a b, R a b → f a = g b) : xs.map f = ys.map g := by
  induction h with
  | nil => rfl
  | cons hab _ ih => rw [map_cons, map_cons, hfg _ _ hab, ih]

theorem flatMap_eq_of_forall₂
    (h : Forall₂ R xs ys) (hfg : ∀ a b, R a b → f a = g b) : xs.flatMap f = ys.flatMap g := by
  rw [flatMap_def, flatMap_def, map_eq_of_forall₂ h hfg]

end Views

section Matches

/-- The second list has, in some order, one related element for each one of the first. -/
def Matches (R : α → β → Prop) (xs : List α) (ys : List β) : Prop :=
  ∃ zs, Forall₂ R xs zs ∧ zs.Perm ys

namespace Matches

theorem of_perm (h : xs.Perm ys) (hR : ∀ x ∈ xs, R x x) : Matches R xs ys := by
  refine ⟨xs, ?_, h⟩
  rw [forall₂_same]
  exact hR

theorem of_forall₂ (h : Forall₂ R xs ys) : Matches R xs ys := ⟨ys, h, .refl ys⟩

theorem perm_of_eq (h : Matches (· = ·) xs ys) : xs.Perm ys := by
  obtain ⟨zs, hzs, hperm⟩ := h
  rw [forall₂_eq_eq_eq] at hzs
  exact hzs ▸ hperm

variable {R : α → β → Prop} {xs : List α} {ys : List β} (h : Matches R xs ys)

include h

theorem map (hfg : ∀ a b, R a b → S (f a) (g b)) : Matches S (xs.map f) (ys.map g) := by
  obtain ⟨zs, hzs, hperm⟩ := h
  refine ⟨zs.map g, ?_, hperm.map g⟩
  rw [forall₂_map_left_iff, forall₂_map_right_iff]
  exact hzs.imp hfg

theorem mono (hRS : ∀ a b, R a b → S a b) : Matches S xs ys := by
  obtain ⟨zs, hzs, hperm⟩ := h
  exact ⟨zs, hzs.imp hRS, hperm⟩

theorem length_eq : xs.length = ys.length := by
  obtain ⟨zs, hzs, hperm⟩ := h
  rw [hzs.length_eq, hperm.length_eq]

theorem map_perm (hfg : ∀ a b, R a b → f a = g b) : (xs.map f).Perm (ys.map g) :=
  (h.map hfg).perm_of_eq

theorem flatMap_perm
    (hfg : ∀ a b, R a b → f a = g b) : (xs.flatMap f).Perm (ys.flatMap g) := by
  have hflat := (h.map_perm hfg).flatten
  rwa [← flatMap_def, ← flatMap_def] at hflat

theorem countP_eq (hpq : ∀ a b, R a b → p a = q b) : xs.countP p = ys.countP q := by
  have hmap := (h.map_perm hpq).countP_eq id
  rwa [countP_map, countP_map] at hmap

theorem exists_right (ha : a ∈ xs) : ∃ b ∈ ys, R a b := by
  obtain ⟨zs, hzs, hperm⟩ := h
  obtain ⟨b, hb, hab⟩ := exists_of_mem_forall₂ hzs.flip ha
  exact ⟨b, hperm.subset hb, hab⟩

theorem exists_left (hb : b ∈ ys) : ∃ a ∈ xs, R a b := by
  obtain ⟨zs, hzs, hperm⟩ := h
  exact exists_of_mem_forall₂ hzs (hperm.mem_iff.mpr hb)

end Matches

end Matches

inductive Agree {α β : Type} (R : α → β → Prop) : Except Fault α → Except Fault β → Prop
  | ok : R a b → Agree R (.ok a) (.ok b)
  | error : Agree R (.error f) (.error g)

section Agree

theorem agree_pure (h : R a b) : Agree R (pure a) (pure b) := .ok h

theorem agree_bind (h : Agree R e e')
    (hnext : ∀ a b, R a b → Agree S (k a) (k' b)) : Agree S (e >>= k) (e' >>= k') := by
  cases h with
  | ok hab => exact hnext _ _ hab
  | error => exact .error

theorem Agree.mono (h : Agree R e e') (hle : ∀ a b, R a b → R' a b) : Agree R' e e' := by
  cases h with
  | ok hab => exact .ok (hle _ _ hab)
  | error => exact .error

theorem Agree.of_eq (h : e = e') (hR : ∀ a, R a a) : Agree R e e' := by
  subst h
  cases e with
  | ok a => exact .ok (hR a)
  | error f => exact .error

theorem Agree.with_left {Q : α → Prop} (h : Agree R e e') (hQ : ∀ a, e = .ok a → Q a) :
    Agree (fun a b => R a b ∧ Q a) e e' := by
  cases h with
  | ok hab => exact .ok ⟨hab, hQ _ rfl⟩
  | error => exact .error

theorem Agree.exists_ok_iff (h : Agree R e e') : (∃ a, e = .ok a) ↔ ∃ b, e' = .ok b := by
  cases h with
  | ok hab => simp
  | error => simp

theorem Agree.rel (h : Agree R e e') (ha : e = .ok a) (hb : e' = .ok b) : R a b := by
  subst ha hb
  cases h with
  | ok hab => exact hab

theorem agree_mapM_of_forall₂ (h : Forall₂ R xs ys) (hfg : ∀ a b, R a b → Agree S (f a) (g b)) :
    Agree (Forall₂ S) (xs.mapM f) (ys.mapM g) := by
  induction h with
  | nil => exact agree_pure .nil
  | cons hab _ ih =>
    rw [mapM_cons, mapM_cons]
    refine agree_bind (hfg _ _ hab) fun c d hcd => ?_
    exact agree_bind ih fun cs ds hrest => agree_pure (.cons hcd hrest)

theorem Agree.trans (h : Agree R e e')
    (h' : Agree T e' e'') : Agree (fun a c => ∃ b, R a b ∧ T b c) e e'' := by
  cases h with
  | ok hab =>
    cases h' with
    | ok hbc => exact .ok ⟨_, hab, hbc⟩
  | error =>
    cases h' with
    | error => exact .error

theorem agree_mapM_of_perm {xs ys : List α} (h : xs.Perm ys) : Agree Perm (xs.mapM f) (ys.mapM f) := by
  induction h with
  | nil => exact agree_pure .nil
  | cons x _ ih =>
    rw [mapM_cons, mapM_cons]
    refine agree_bind (R := (· = ·)) (.of_eq rfl fun _ => rfl) fun y _ hy => ?_
    cases hy
    exact agree_bind ih fun cs ds hperm => agree_pure (Perm.cons y hperm)
  | swap x y xs =>
    simp only [mapM_cons]
    cases hx : f x with
    | error fault => cases hy : f y <;> exact .error
    | ok a =>
      cases hy : f y with
      | error fault => exact .error
      | ok b =>
        cases hxs : xs.mapM f with
        | error fault => exact .error
        | ok cs => exact .ok (.swap a b cs)
  | trans _ _ ih ih' =>
    refine (ih.trans ih').mono fun as cs h => ?_
    obtain ⟨bs, hab, hbc⟩ := h
    exact hab.trans hbc

theorem agree_mapM {g : β → Except Fault δ} (h : Matches R xs ys) (hfg : ∀ a b, R a b → Agree S (f a) (g b)) :
    Agree (Matches S) (xs.mapM f) (ys.mapM g) := by
  obtain ⟨zs, hzs, hperm⟩ := h
  refine ((agree_mapM_of_forall₂ hzs hfg).trans (agree_mapM_of_perm hperm)).mono fun cs ds hcd => ?_
  obtain ⟨bs, hforall, hbd⟩ := hcd
  exact ⟨bs, hforall, hbd⟩

theorem agree_foldlM (h : Forall₂ S xs ys) (hab : R a b)
    (hstep : ∀ a b x y, R a b → S x y → Agree R (step a x) (step' b y)) :
    Agree R (xs.foldlM step a) (ys.foldlM step' b) := by
  induction h generalizing a b with
  | nil => exact agree_pure hab
  | cons hxy _ ih =>
    rw [foldlM_cons, foldlM_cons]
    exact agree_bind (hstep _ _ _ _ hab hxy) fun _ _ hnext => ih hnext

theorem forM_eq_mapM (f : α → Except Fault PUnit) (xs : List α) :
    xs.forM f = do let _ ← xs.mapM f; return ⟨⟩ := by
  induction xs with
  | nil => rfl
  | cons x xs ih =>
    rw [forM_eq_forM] at ih ⊢
    rw [forM_cons, mapM_cons, ih]
    cases f x with
    | error fault => rfl
    | ok y => cases xs.mapM f <;> rfl

theorem agree_forM (h : Matches R xs ys) (hfg : ∀ a b, R a b → Agree (fun _ _ => True) (f a) (g b)) :
    Agree (fun _ _ => True) (xs.forM f) (ys.forM g) := by
  rw [forM_eq_mapM, forM_eq_mapM]
  exact agree_bind (agree_mapM h hfg) fun _ _ _ => agree_pure trivial

end Agree

namespace Table

variable {t : Table κ α} {t' : Table κ β}

def EntryRel (R : α → β → Prop) (e : κ × α) (e' : κ × β) : Prop := e'.1 = e.1 ∧ R e.2 e'.2

variable {R : α → β → Prop} (h : Matches (EntryRel R) t.entries t'.entries)

include h

theorem names_perm : t.names.Perm t'.names :=
  h.map_perm fun _ _ hab => hab.1.symm

theorem values_matches :
    Matches R t.values t'.values :=
  h.map fun _ _ hab => hab.2

theorem matches_mapValues (hfg : ∀ a b, R a b → S (f a) (g b)) :
    Matches (EntryRel S) (t.mapValues f).entries (t'.mapValues g).entries :=
  h.map fun _ _ hab => ⟨hab.1, hfg _ _ hab.2⟩

variable [DecidableEq κ]

theorem rel_find? (hnames : t.names.Nodup) (a : κ) :
    Option.Rel R (t.find? a) (t'.find? a) := by
  have hperm := names_perm h
  have hnames' : t'.names.Nodup := hperm.nodup_iff.mp hnames
  cases hfound : t.find? a with
  | none =>
    have hnone : t'.find? a = none := by
      rw [find?_eq_none_iff] at hfound ⊢
      rwa [← hperm.mem_iff]
    rw [hnone]
    exact .none
  | some c =>
    obtain ⟨⟨b, d⟩, hmem, hname, hcd⟩ := h.exists_right (mem_of_find? hfound)
    cases hname
    rw [find?_of_mem hnames' hmem]
    exact .some hcd

theorem has_eq (a : κ) : t.has a = t'.has a := by
  rw [Bool.eq_iff_iff, has_iff_mem_names, has_iff_mem_names, (names_perm h).mem_iff]

end Table

end ObjcLowering
