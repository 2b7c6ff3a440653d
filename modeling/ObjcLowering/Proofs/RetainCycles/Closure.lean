import Mathlib.Data.List.Perm.Subperm
import Mathlib.Order.Bounds.Basic
import ObjcLowering.Proofs.Tables
import ObjcLowering.Proofs.Texts
import ObjcLowering.RetainCycles.Imports

/-! The files that sources reach through their imports. -/

namespace ObjcLowering

open List

variable {fs : Files} {absolute : Bool} {back parts names : List String}

namespace Path

def IsPlain (p : Path) : Prop := ∀ part ∈ p.parts, part ≠ "." ∧ part ≠ "/"

def IsNormal (p : Path) : Prop := ∀ part ∈ p.parts, part ≠ ".." ∧ part ≠ "." ∧ part ≠ "/"

theorem isPlain_ofText (s : String) : (ofText s).IsPlain := by
  intro part hpart
  obtain ⟨hmem, hpart⟩ := mem_filter.mp hpart
  obtain ⟨chars, hchars, rfl⟩ := mem_map.mp hmem
  refine ⟨by simpa using (Bool.and_eq_true_iff.mp hpart).2, fun h => ?_⟩
  have hslash := Text.Chars.notMem_of_mem_splitBy hchars
  rw [← String.toList_ofList (l := chars), h] at hslash
  exact hslash (by decide)

theorem IsPlain.join (hp : IsPlain p) (hq : IsPlain q) : (p.join q).IsPlain := by
  unfold Path.join
  split
  · exact hq
  · exact fun part h => (mem_append.mp h).elim (hp part) (hq part)

theorem IsNormal.parent (hp : IsNormal p) : p.parent.IsPlain :=
  fun part h => (hp part (dropLast_subset _ h)).2

theorem IsNormal.eq_of_steps_eq (hp : IsNormal p) (hq : IsNormal q) (h : p.steps = q.steps) : p = q := by
  obtain ⟨a, parts⟩ := p
  obtain ⟨b, others⟩ := q
  cases a <;> cases b
  · exact congrArg (Path.mk false) h
  · cases (h : parts = "/" :: others)
    exact absurd rfl (hp "/" (.head _)).2.2
  · cases (h : "/" :: parts = others)
    exact absurd rfl (hq "/" (.head _)).2.2
  · exact congrArg (Path.mk true) (cons.inj h).2

theorem forall_mem_normalizeFrom {P : String → Prop} (hback : ∀ part ∈ back, P part)
    (hparts : ∀ part ∈ parts, part ≠ ".." → P part)
    (h : normalizeFrom absolute back parts = some names) : ∀ part ∈ names, P part := by
  induction parts generalizing back with
  | nil =>
    cases h
    simpa using hback
  | cons part parts ih =>
    obtain ⟨hpart, hparts⟩ := forall_mem_cons.mp hparts
    unfold normalizeFrom at h
    split at h
    · split at h
      · split at h
        · exact ih hback hparts h
        · cases h
      · exact ih (forall_mem_cons.mp hback).2 hparts h
    · next hup => exact ih (forall_mem_cons.mpr ⟨hpart hup, hback⟩) hparts h

theorem IsPlain.isNormal (hc : IsPlain c) (hp : c.normalize? = some p) : p.IsNormal := by
  obtain ⟨names, hnames, rfl⟩ := Option.map_eq_some_iff.mp hp
  exact forall_mem_normalizeFrom (by simp) (fun part h hup => ⟨hup, hc part h⟩) hnames

end Path

namespace Files

theorem walk_eq (hparts : ∀ part ∈ parts, part ≠ ".." ∧ part ≠ "." ∧ part ≠ "/")
    (h : fs.walk back parts = .ok target) : target = back.reverse ++ parts := by
  induction parts generalizing back with
  | nil =>
    cases h
    rw [append_nil]
  | cons part parts ih =>
    obtain ⟨⟨hup, hdot, -⟩, hparts⟩ := forall_mem_cons.mp hparts
    rw [walk, if_neg hup, if_neg hdot] at h
    split at h
    · cases h
    split at h
    · rw [ih hparts h, reverse_cons, append_assoc, singleton_append]
    · split at h <;> cases h

/-- The walk along a normal path leads nowhere else, so a file there is listed under its steps. -/
theorem steps_mem_of_isFile (hp : p.IsNormal) (h : fs.isFile p = true) :
    p.steps ∈ fs.entries.map fun e => e.1.steps := by
  unfold isFile Files.find? place at h
  split at h
  · cases hwalk : fs.walk p.origin p.parts with
    | error e => simp [hwalk, Except.toOption] at h
    | ok target =>
      have horigin : p.origin.reverse = p.origin := by
        unfold Path.origin
        split <;> rfl
      have htarget : target = p.steps := by rw [walk_eq hp hwalk, horigin, Path.steps]
      simpa [hwalk, htarget, Except.toOption, fileAt?] using h
  · cases h

end Files

namespace RetainCycles

theorem isNormal_of_mem_importsOf (hdirs : ∀ d ∈ dirs, d.IsPlain) (hsource : source.IsNormal)
    (h : p ∈ importsOf fs dirs source) : p.IsNormal := by
  unfold importsOf at h
  split at h
  · cases h
  obtain ⟨line, -, hp⟩ := mem_filterMap.mp h
  obtain ⟨name, -, hp⟩ := Option.bind_eq_some_iff.mp hp
  unfold resolve? at hp
  dsimp only at hp
  split at hp
  · cases hp
  obtain ⟨c, hc, hp⟩ := Option.bind_eq_some_iff.mp hp
  obtain ⟨dir, hdir, rfl⟩ := mem_map.mp (mem_of_find?_eq_some hc)
  have hplain : dir.IsPlain := by
    rcases mem_cons.mp hdir with rfl | hdir
    exacts [hsource.parent, hdirs dir hdir]
  exact (hplain.join (Path.isPlain_ofText name)).isNormal hp

structure Found (fs : Files) (found : List Path) : Prop where
  nodup : found.Nodup
  isNormal : ∀ p ∈ found, p.IsNormal
  isFile : ∀ p ∈ found, fs.isFile p = true

theorem Found.length_le (h : Found fs found) : found.length ≤ fs.entries.length := by
  have hnodup : (found.map Path.steps).Nodup :=
    h.nodup.map_on fun p hp q hq => (h.isNormal p hp).eq_of_steps_eq (h.isNormal q hq)
  have hlisted : found.map Path.steps ⊆ fs.entries.map fun e => e.1.steps := by
    intro steps hsteps
    obtain ⟨p, hp, rfl⟩ := mem_map.mp hsteps
    exact Files.steps_mem_of_isFile (h.isNormal p hp) (h.isFile p hp)
  simpa using (hnodup.subperm hlisted).length_le

def Imports (fs : Files) (dirs : List Path) (p q : Path) : Prop :=
  q ∈ importsOf fs dirs p ∧ fs.isFile q = true

theorem mem_grow : p ∈ grow fs dirs found ↔ p ∈ found ∨ ∃ q ∈ found, Imports fs dirs q p := by
  simp [grow, mem_addAllNew, Imports, exists_and_right, ← and_assoc]

theorem Found.grow (hdirs : ∀ d ∈ dirs, d.IsPlain) (h : Found fs found) :
    Found fs (grow fs dirs found) where
  nodup := nodup_addAllNew h.nodup _
  isNormal p hp := by
    rcases mem_grow.mp hp with hp | ⟨q, hq, hp⟩
    · exact h.isNormal p hp
    · exact isNormal_of_mem_importsOf hdirs (h.isNormal q hq) hp.1
  isFile p hp := (mem_grow.mp hp).elim (h.isFile p) fun ⟨_, _, hp⟩ => hp.2

def IsClosed (fs : Files) (dirs : List Path) (files : Set Path) : Prop :=
  ∀ p ∈ files, ∀ q, Imports fs dirs p q → q ∈ files

theorem IsClosed.grow (h : IsClosed fs dirs { p | p ∈ found }) :
    IsClosed fs dirs { p | p ∈ grow fs dirs found } := by
  intro p hp q hq
  have hold : p ∈ found := (mem_grow.mp hp).elim id fun ⟨r, hr, hp⟩ => h r hr p hp
  exact mem_grow.mpr (.inl (h p hold q hq))

theorem length_grow (h : found.Nodup) (hopen : ¬ IsClosed fs dirs { p | p ∈ found }) :
    found.length < (grow fs dirs found).length := by
  obtain ⟨p, hp, q, hq, hnew⟩ : ∃ p ∈ found, ∃ q, Imports fs dirs p q ∧ q ∉ found := by
    simpa [IsClosed] using hopen
  refine ((nodup_cons.mpr ⟨hnew, h⟩).subperm ?_).length_le
  exact cons_subset.mpr ⟨mem_grow.mpr (.inr ⟨p, hp, hq⟩), fun r hr => mem_grow.mpr (.inl hr)⟩

/-- The search has a round for each file that it may still find, so it ends with a closed list. -/
theorem isClosed_growTimes (hdirs : ∀ d ∈ dirs, d.IsPlain) (h : Found fs found)
    (hrounds : fs.entries.length ≤ found.length + k ∨ IsClosed fs dirs { p | p ∈ found }) :
    Found fs (growTimes fs dirs k found) ∧ IsClosed fs dirs { p | p ∈ growTimes fs dirs k found } := by
  induction k generalizing found with
  | zero =>
    refine ⟨h, hrounds.elim (fun hfull => ?_) id⟩
    by_contra hopen
    exact absurd ((length_grow h.nodup hopen).trans_le (h.grow hdirs).length_le) (Nat.not_lt.mpr hfull)
  | succ k ih =>
    refine ih (h.grow hdirs) ?_
    by_cases hclosed : IsClosed fs dirs { p | p ∈ found }
    · exact .inr hclosed.grow
    · have hmore := length_grow h.nodup hclosed
      have hfull := hrounds.resolve_right hclosed
      exact .inl (by omega)

theorem subset_growTimes (k : Nat) : found ⊆ growTimes fs dirs k found := by
  induction k generalizing found with
  | zero => exact fun p hp => hp
  | succ k ih => exact fun p hp => ih (mem_grow.mpr (.inl hp))

theorem growTimes_subset (hclosed : IsClosed fs dirs files)
    (h : ∀ p ∈ found, p ∈ files) : ∀ p ∈ growTimes fs dirs k found, p ∈ files := by
  induction k generalizing found with
  | zero => exact h
  | succ k ih =>
    refine ih fun p hp => ?_
    rcases mem_grow.mp hp with hp | ⟨q, hq, hp⟩
    exacts [h p hp, hclosed q (h q hq) p hp]

def namedFiles (fs : Files) (sources : List String) : Set Path :=
  { p | fs.isFile p = true ∧ ∃ s ∈ sources, (Path.ofText s).normalize? = some p }

theorem mem_starts : p ∈ distinct (((sources.map Path.ofText).filterMap Path.normalize?).filter fs.isFile) ↔
    p ∈ namedFiles fs sources := by
  simp [mem_distinct, namedFiles, and_comm]

theorem found_starts (fs : Files) (sources : List String) :
    Found fs (distinct (((sources.map Path.ofText).filterMap Path.normalize?).filter fs.isFile)) where
  nodup := nodup_distinctFrom
  isNormal p hp := by
    obtain ⟨-, s, -, hs⟩ := mem_starts.mp hp
    exact (Path.isPlain_ofText s).isNormal hs
  isFile p hp := (mem_starts.mp hp).1

end RetainCycles

end ObjcLowering
