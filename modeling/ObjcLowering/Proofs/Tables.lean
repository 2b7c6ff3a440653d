import Mathlib.Data.List.Forall2
import Mathlib.Data.List.Nodup
import Mathlib.Data.List.Perm.Basic
import ObjcLowering.Table

/-!
Look-up in tables whose names are distinct, what setting and changing values does to it, and lists
without repetitions.
-/

namespace ObjcLowering

open List

section Lists

variable [BEq α] [LawfulBEq α] {seen xs ys : List α}

theorem mem_distinctFrom : x ∈ distinctFrom seen xs ↔ x ∈ xs ∧ x ∉ seen := by
  induction xs generalizing seen with
  | nil => simp [distinctFrom]
  | cons y ys ih =>
    rw [distinctFrom]
    split
    · next hseen =>
      rw [ih, mem_cons]
      constructor
      · exact fun ⟨hmem, hnot⟩ => ⟨.inr hmem, hnot⟩
      · rintro ⟨rfl | hmem, hnot⟩
        · exact absurd (contains_iff_mem.mp hseen) hnot
        · exact ⟨hmem, hnot⟩
    · next hseen =>
      have hnot' := mt contains_iff_mem.mpr hseen
      rw [mem_cons, ih, mem_cons, mem_cons, not_or]
      constructor
      · rintro (rfl | ⟨hmem, -, hnot⟩)
        · exact ⟨.inl rfl, hnot'⟩
        · exact ⟨.inr hmem, hnot⟩
      · rintro ⟨heq | hmem, hnot⟩
        · exact .inl heq
        · by_cases heq : x = y
          · exact .inl heq
          · exact .inr ⟨hmem, heq, hnot⟩

theorem nodup_distinctFrom : (distinctFrom seen xs).Nodup := by
  induction xs generalizing seen with
  | nil => exact .nil
  | cons y ys ih =>
    rw [distinctFrom]
    split
    · exact ih
    · exact nodup_cons.mpr ⟨fun h => (mem_distinctFrom.mp h).2 (.head _), ih⟩

theorem mem_distinct : x ∈ distinct xs ↔ x ∈ xs := by
  rw [distinct, mem_distinctFrom]
  exact and_iff_left not_mem_nil

theorem mem_addNew : y ∈ addNew xs x ↔ y ∈ xs ∨ y = x := by
  unfold addNew
  split
  · next hx => exact ⟨.inl, fun h => h.elim id fun heq => heq ▸ contains_iff_mem.mp hx⟩
  · simp

theorem mem_addAllNew : y ∈ addAllNew xs ys ↔ y ∈ xs ∨ y ∈ ys := by
  induction ys generalizing xs with
  | nil => simp [addAllNew]
  | cons x ys ih =>
    have hstep : addAllNew xs (x :: ys) = addAllNew (addNew xs x) ys := rfl
    rw [hstep, ih, mem_addNew, mem_cons, or_assoc]

theorem addAllNew_eq_append (hys : ys.Nodup) (h : ∀ y ∈ ys, y ∉ xs) : addAllNew xs ys = xs ++ ys := by
  induction ys generalizing xs with
  | nil => simp [addAllNew]
  | cons y ys ih =>
    rw [forall_mem_cons] at h
    rw [nodup_cons] at hys
    have hnew : ∀ z ∈ ys, z ∉ xs ++ [y] := by
      intro z hz hmem
      rcases mem_append.mp hmem with hmem | hmem
      · exact h.2 z hz hmem
      · exact hys.1 (mem_singleton.mp hmem ▸ hz)
    have hstep : addAllNew xs (y :: ys) = addAllNew (xs ++ [y]) ys := by
      simp [addAllNew, addNew, h.1]
    rw [hstep, ih hys.2 hnew, append_assoc, singleton_append]

theorem nodup_addNew (h : xs.Nodup) (x : α) : (addNew xs x).Nodup := by
  unfold addNew
  split
  · exact h
  · next hnew =>
    rw [contains_iff_mem] at hnew
    exact nodup_append.mpr
      ⟨h, nodup_singleton _, fun a ha b hb heq => hnew (mem_singleton.mp hb ▸ heq ▸ ha)⟩

theorem nodup_addAllNew (h : xs.Nodup) (ys : List α) : (addAllNew xs ys).Nodup := by
  induction ys generalizing xs with
  | nil => exact h
  | cons y ys ih => exact ih (nodup_addNew h y)

end Lists

namespace Table

universe u

variable {t : Table κ α}

theorem mem_names : name ∈ t.names ↔ ∃ value, (name, value) ∈ t.entries := by
  simp [names]

theorem mem_values : value ∈ t.values ↔ ∃ name, (name, value) ∈ t.entries := by
  simp [values]

@[simp] theorem length_names (t : Table κ α) : t.names.length = t.entries.length := by
  simp [names]

variable [DecidableEq κ]

theorem mem_of_find? {value : α} (h : t.find? name = some value) : (name, value) ∈ t.entries := by
  obtain ⟨before, after, hentries, -⟩ := lookup_eq_some_iff.mp h
  rw [hentries]
  simp

theorem find?_of_mem {value : α} (hnames : t.names.Nodup)
    (h : (name, value) ∈ t.entries) : t.find? name = some value := by
  obtain ⟨before, after, hentries⟩ := append_of_mem h
  refine lookup_eq_some_iff.mpr ⟨before, after, hentries, fun p hp => ?_⟩
  rw [names, hentries, map_append, map_cons] at hnames
  have hdisjoint := (nodup_append.mp hnames).2.2
  rw [bne_iff_ne]
  exact (hdisjoint p.1 (mem_map_of_mem hp) name (.head _)).symm

theorem mem_getD_find? {t : Table κ (List β)} (hnames : t.names.Nodup) {name : κ} :
    x ∈ (t.find? name).getD [] ↔ ∃ xs, (name, xs) ∈ t.entries ∧ x ∈ xs := by
  constructor
  · intro h
    cases hfind : t.find? name with
    | none => simp [hfind] at h
    | some xs =>
      rw [hfind, Option.getD_some] at h
      exact ⟨xs, mem_of_find? hfind, h⟩
  · rintro ⟨xs, hmem, hx⟩
    rwa [find?_of_mem hnames hmem, Option.getD_some]

theorem has_iff_mem_names : t.has name = true ↔ name ∈ t.names := by
  rw [has, find?, lookup_isSome_iff, mem_names]
  constructor
  · rintro ⟨p, hp, hname⟩
    exact ⟨p.2, by rwa [eq_of_beq hname]⟩
  · rintro ⟨value, hvalue⟩
    exact ⟨_, hvalue, beq_self_eq_true name⟩

theorem find?_eq_none_iff : t.find? name = none ↔ name ∉ t.names := by
  rw [← has_iff_mem_names, has]
  cases t.find? name <;> simp

theorem setIn_append_of_notMem {front : List (κ × α)} (h : name ∉ front.map (·.1)) (value : α)
    (rest : List (κ × α)) : setIn name value (front ++ rest) = front ++ setIn name value rest := by
  induction front with
  | nil => rfl
  | cons e front ih =>
    obtain ⟨n, v⟩ := e
    simp only [map_cons, mem_cons, not_or] at h
    rw [cons_append, setIn, if_neg (Ne.symm h.1), ih h.2, cons_append]

theorem entries_set_of_notMem {value : α} (h : name ∉ t.names) :
    (t.set name value).entries = t.entries ++ [(name, value)] := by
  have hset := setIn_append_of_notMem h value []
  rwa [append_nil] at hset

@[simp] theorem find?_set (t : Table κ α) (name a : κ) (value : α) :
    (t.set name value).find? a = if a = name then some value else t.find? a := by
  obtain ⟨entries⟩ := t
  induction entries with
  | nil => by_cases h : a = name <;> simp [set, setIn, find?, h]
  | cons e rest ih =>
    obtain ⟨n, v⟩ := e
    simp only [set, find?] at ih
    by_cases hname : n = name
    · subst hname
      by_cases ha : a = n <;> simp [set, setIn, find?, lookup_cons, ha, beq_false_of_ne]
    · by_cases ha : a = n
      · subst ha
        simp [set, setIn, find?, hname]
      · simp [set, setIn, find?, lookup_cons, hname, beq_false_of_ne ha, ih]

theorem names_set (t : Table κ α) (name : κ) (value : α) :
    (t.set name value).names = addNew t.names name := by
  obtain ⟨entries⟩ := t
  induction entries with
  | nil => rfl
  | cons e rest ih =>
    obtain ⟨n, v⟩ := e
    simp only [set, names] at ih
    by_cases hname : n = name
    · subst hname
      simp [set, setIn, names, addNew]
    · have hrest : (setIn name value rest).map (·.1) = addNew (rest.map (·.1)) name := ih
      simp only [set, setIn, names, hname, if_false, map_cons, hrest, addNew, contains_cons,
        beq_false_of_ne (Ne.symm hname), Bool.false_or]
      split <;> rfl

theorem nodup_names_set (h : t.names.Nodup) (name : κ) (value : α) : (t.set name value).names.Nodup :=
  names_set t name value ▸ nodup_addNew h name

theorem mem_names_set {name a : κ} {value : α} : a ∈ (t.set name value).names ↔ a ∈ t.names ∨ a = name :=
  names_set t name value ▸ mem_addNew

theorem mem_names_merge {entries : List (κ × α)} {a : κ} :
    a ∈ (t.merge ⟨entries⟩).names ↔ a ∈ t.names ∨ a ∈ entries.map (·.1) := by
  induction entries generalizing t with
  | nil => simp [merge]
  | cons e entries ih =>
    have hstep : t.merge ⟨e :: entries⟩ = (t.set e.1 e.2).merge ⟨entries⟩ := rfl
    rw [hstep, ih, mem_names_set, map_cons, mem_cons, or_assoc]

theorem entries_merge_of_nodup {entries : List (κ × α)}
    (h : (t.names ++ entries.map (·.1)).Nodup) : (t.merge ⟨entries⟩).entries = t.entries ++ entries := by
  induction entries generalizing t with
  | nil => simp [merge]
  | cons e entries ih =>
    have hstep : t.merge ⟨e :: entries⟩ = (t.set e.1 e.2).merge ⟨entries⟩ := rfl
    have hnew : e.1 ∉ t.names := fun hmem => disjoint_of_nodup_append h hmem (.head _)
    have hentries : (t.set e.1 e.2).entries = t.entries ++ [e] := entries_set_of_notMem hnew
    have hnames : (t.set e.1 e.2).names = t.names ++ [e.1] := by simp [names, hentries]
    rw [hstep, ih (by rwa [hnames, append_assoc]), hentries, append_assoc]
    rfl

theorem eq_or_mem_of_mem_set {value : α} {e : κ × α}
    (h : e ∈ (t.set name value).entries) : e = (name, value) ∨ e ∈ t.entries := by
  obtain ⟨entries⟩ := t
  induction entries with
  | nil => exact .inl (mem_singleton.mp h)
  | cons d rest ih =>
    obtain ⟨n, v⟩ := d
    simp only [set, setIn] at h ih ⊢
    split at h
    · next hname =>
      rcases mem_cons.mp h with rfl | h
      · exact .inl (by rw [hname])
      · exact .inr (.tail _ h)
    · rcases mem_cons.mp h with rfl | h
      · exact .inr (.head _)
      · exact (ih h).imp_right (.tail _)

section

variable (t : Table κ α) (f : α → β)

omit [DecidableEq κ] in
theorem mapValues_mapValues (g : β → γ) : (t.mapValues f).mapValues g = t.mapValues (g ∘ f) := by
  simp [mapValues]

omit [DecidableEq κ] in
@[simp] theorem values_mapValues : (t.mapValues f).values = t.values.map f := by
  simp [mapValues, values]

omit [DecidableEq κ] in
theorem exists_of_mapValues_eq {t : Table κ α} {f : α → γ} {u : Table κ β}
    (h : t.mapValues f = u.mapValues g) (ha : a ∈ t.values) : ∃ b ∈ u.values, g b = f a := by
  apply mem_map.mp
  rw [← values_mapValues, ← h, values_mapValues]
  exact mem_map_of_mem ha

@[simp] theorem find?_mapValues (name : κ) : (t.mapValues f).find? name = (t.find? name).map f := by
  obtain ⟨entries⟩ := t
  induction entries with
  | nil => rfl
  | cons e rest ih =>
    obtain ⟨n, v⟩ := e
    simp only [mapValues, find?] at ih
    simp only [mapValues, find?, map_cons, lookup_cons, ih]
    cases name == n <;> rfl

end

theorem flatMap_find?_perm {t : Table κ (List β)} {names : List κ} (hnames : names.Nodup)
    (ht : t.names.Nodup) (h : ∀ e ∈ t.entries, e.1 ∈ names ∨ e.2 = []) :
    (names.flatMap fun name => (t.find? name).getD []).Perm t.values.flatten := by
  obtain ⟨entries⟩ := t
  induction entries generalizing names with
  | nil =>
    have hnone : names.flatMap (fun name => ((⟨[]⟩ : Table κ (List β)).find? name).getD []) = [] :=
      flatMap_eq_nil_iff.mpr fun _ _ => rfl
    rw [hnone]
    exact .refl _
  | cons e rest ih =>
    obtain ⟨n, v⟩ := e
    obtain ⟨hn, hrest⟩ := nodup_cons.mp ht
    obtain ⟨he, hes⟩ := forall_mem_cons.mp h
    -- A name other than `n` is looked up in the rest.
    have htail : ∀ ns : List κ, n ∉ ns →
        (ns.flatMap fun name => ((⟨(n, v) :: rest⟩ : Table κ (List β)).find? name).getD []) =
          ns.flatMap fun name => ((⟨rest⟩ : Table κ (List β)).find? name).getD [] := by
      intro ns hns
      refine flatMap_congr fun name hname => ?_
      have hne : name ≠ n := fun heq => hns (heq ▸ hname)
      simp [find?, lookup_cons, beq_false_of_ne hne]
    have hvalues : (⟨(n, v) :: rest⟩ : Table κ (List β)).values.flatten =
        v ++ (⟨rest⟩ : Table κ (List β)).values.flatten := rfl
    by_cases hmem : n ∈ names
    · have hperm := perm_cons_erase hmem
      have hnot : n ∉ names.erase n := (nodup_cons.mp (hperm.nodup_iff.mp hnames)).1
      have hothers : ∀ e ∈ rest, e.1 ∈ names.erase n ∨ e.2 = [] := by
        intro e hemem
        refine (hes e hemem).imp_left fun hname => (mem_erase_of_ne ?_).mpr hname
        exact fun heq => hn (mem_map.mpr ⟨e, hemem, heq⟩)
      refine (hperm.flatMap_right _).trans ?_
      rw [flatMap_cons, htail _ hnot, hvalues]
      have hhead : ((⟨(n, v) :: rest⟩ : Table κ (List β)).find? n).getD [] = v := by simp [find?]
      rw [hhead]
      exact (ih (hnames.erase n) hrest hothers).append_left v
    · have hv : v = [] := he.resolve_left hmem
      rw [htail _ hmem, hvalues, hv, nil_append]
      exact ih hnames hrest hes

end Table

theorem exists_of_mem_forall₂ (h : Forall₂ R xs ys) (hy : y ∈ ys) : ∃ x ∈ xs, R x y := by
  induction h with
  | nil => cases hy
  | @cons a b _ _ hhead _ ih =>
    cases hy with
    | head => exact ⟨a, .head _, hhead⟩
    | tail _ hy =>
      obtain ⟨x, hx, hxy⟩ := ih hy
      exact ⟨x, .tail _ hx, hxy⟩

end ObjcLowering
