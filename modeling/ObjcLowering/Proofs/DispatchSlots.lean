import Mathlib
import ObjcLowering.DispatchTables.Sizes

/-! Places of selectors in the flat dispatch table. -/

namespace ObjcLowering.DispatchTables

open List

def sizeNamed (c : Counts) (pools : Int) (name : String) : Int :=
  (((sizes c pools).lookup name).map (·.value)).getD 0

theorem le_two_pow_bitLength (n : Nat) : n ≤ 2 ^ bitLength (n - 1) := by
  unfold bitLength
  split
  · omega
  · have hlt := Nat.lt_log2_self (n := n - 1)
    omega

theorem two_pow_bitLength_lt (h : 2 ≤ n) : 2 ^ bitLength (n - 1) < 2 * n := by
  have hle := Nat.log2_self_le (n := n - 1) (by omega)
  rw [bitLength, if_neg (by omega), Nat.pow_succ]
  omega

theorem le_two_pow_selBits (n : Nat) : n ≤ 2 ^ selBits n :=
  (le_two_pow_bitLength n).trans (Nat.pow_le_pow_right (by decide) (Nat.le_max_right _ _))

theorem two_pow_selBits_lt (h : 3 ≤ n) : 2 ^ selBits n < 2 * n := by
  have hbits : 1 ≤ bitLength (n - 1) := by
    rw [bitLength, if_neg (by omega)]
    omega
  rw [selBits, Nat.max_eq_right hbits]
  exact two_pow_bitLength_lt (by omega)

theorem classTableSize_ge (h : 0 < classes) : 2 * classes + 4 ≤ classTableSize classes := by
  rw [classTableSize, if_pos h]

theorem eq_of_row_eq {i j s t width : Int} (hs : 0 ≤ s ∧ s < width) (ht : 0 ≤ t ∧ t < width)
    (h : i * width + s = j * width + t) : i = j ∧ s = t := by
  have hrow : i = j := by
    have hi := Int.add_mul_ediv_right s i (c := width) (by omega)
    have hj := Int.add_mul_ediv_right t j (c := width) (by omega)
    rw [Int.add_comm, Int.ediv_eq_zero_of_lt hs.1 hs.2] at hi
    rw [Int.add_comm, Int.ediv_eq_zero_of_lt ht.1 ht.2, ← h] at hj
    omega
  subst hrow
  exact ⟨rfl, by omega⟩

theorem row_lt {i s rows width : Int} (hi : i < rows) (hs : s < width) (hwidth : 0 ≤ width) :
    i * width + s < rows * width := by
  have hle : (i + 1) * width ≤ rows * width := Int.mul_le_mul_of_nonneg_right (by omega) hwidth
  rw [Int.add_mul] at hle
  omega

def selectorId (names : List String) (name : String) : Nat := (sortNames names).idxOf name

theorem sortNames_perm (names : List String) : (sortNames names).Perm names := mergeSort_perm _ _

theorem zipIdx_eq_map_idxOf {xs : List String} (h : xs.Nodup) :
    xs.zipIdx = xs.map fun x => (x, xs.idxOf x) := by
  refine ext_getElem (by simp) fun i hi hi' => ?_
  simp [h.idxOf_getElem]

theorem bijOn_selectorId (h : names.Nodup) :
    Set.BijOn (selectorId names) {name | name ∈ names} {i | i < names.length} := by
  have hperm := sortNames_perm names
  refine ⟨fun name hname => ?_, fun a ha b hb heq => ?_, fun i hi => ?_⟩
  · rw [Set.mem_ofPred_eq, ← hperm.length_eq]
    exact idxOf_lt_length_of_mem (hperm.mem_iff.mpr hname)
  · exact (idxOf_inj (hperm.mem_iff.mpr ha)).mp heq
  · have hlt : i < (sortNames names).length := by
      rw [hperm.length_eq]
      exact hi
    exact ⟨(sortNames names)[i], hperm.mem_iff.mp (getElem_mem hlt),
      (hperm.nodup_iff.mpr h).idxOf_getElem i hlt⟩

theorem initText_eq (h : names.Nodup) : ∃ front back, initText (sortNames names) = front ++
    String.join ((sortNames names).map fun name => s!"\t\x7b\"{name}\", {selectorId names name}\x7d,\n") ++
    back := by
  unfold initText
  rw [zipIdx_eq_map_idxOf ((sortNames_perm names).nodup_iff.mpr h), map_map]
  simp only [selectorId, Function.comp_def]
  generalize String.join _ = rows
  exact ⟨_, _, String.append_assoc⟩

/-- The selectors are numbered one by one, and each class slot has a row in the flat table that is wide
enough for all of them: no two pairs of a slot and a selector share a place, and all places are in it. -/
theorem flat_places_apart (c : Counts) (pools : Int) {names : List String} (hnames : names.Nodup)
    (hcount : c.selectors = names.length) :
    sizeNamed c pools "NUM_SELECTORS" = names.length ∧
      sizeNamed c pools "SEL_COUNT" = 2 ^ (sizeNamed c pools "SEL_BITS").toNat ∧
      sizeNamed c pools "NUM_SELECTORS" ≤ sizeNamed c pools "SEL_COUNT" ∧
      (3 ≤ names.length → sizeNamed c pools "SEL_COUNT" < 2 * sizeNamed c pools "NUM_SELECTORS") ∧
      (0 < c.classes → 2 * c.classes + 4 ≤ sizeNamed c pools "CLASS_TABLE_SIZE") ∧
      Set.BijOn (selectorId names) {name | name ∈ names} {i | i < names.length} ∧
      (∃ front back, initText (sortNames names) = front ++ String.join
        ((sortNames names).map fun name => s!"\t\x7b\"{name}\", {selectorId names name}\x7d,\n") ++ back) ∧
      Set.InjOn (fun p : Int × String => p.1 * sizeNamed c pools "SEL_COUNT" + selectorId names p.2)
        {p | 0 ≤ p.1 ∧ p.1 < sizeNamed c pools "CLASS_TABLE_SIZE" ∧ p.2 ∈ names} ∧
      ∀ i name, 0 ≤ i → i < sizeNamed c pools "CLASS_TABLE_SIZE" → name ∈ names →
        0 ≤ i * sizeNamed c pools "SEL_COUNT" + selectorId names name ∧
          i * sizeNamed c pools "SEL_COUNT" + selectorId names name <
            sizeNamed c pools "FLAT_DISPATCH_TABLE_SIZE" := by
  have hselectors : sizeNamed c pools "NUM_SELECTORS" = names.length := by rw [← hcount]; rfl
  have hbits : sizeNamed c pools "SEL_BITS" = selBits names.length := by rw [← hcount]; rfl
  have hwidth : sizeNamed c pools "SEL_COUNT" = (2 ^ selBits names.length : Nat) := by rw [← hcount]; rfl
  have hclasses : sizeNamed c pools "CLASS_TABLE_SIZE" = classTableSize c.classes := rfl
  have hflat : sizeNamed c pools "FLAT_DISPATCH_TABLE_SIZE" =
      classTableSize c.classes * (2 ^ selBits names.length : Nat) := by rw [← hcount]; rfl
  have hfits := le_two_pow_selBits names.length
  have hid := bijOn_selectorId hnames
  have hrow : ∀ {name}, name ∈ names →
      0 ≤ (selectorId names name : Int) ∧ (selectorId names name : Int) < (2 ^ selBits names.length : Nat) := by
    intro name hname
    have hlt : selectorId names name < names.length := hid.mapsTo hname
    omega
  rw [hselectors, hbits, hwidth, hclasses, hflat]
  refine ⟨rfl, by simp, by omega, fun h => ?_, classTableSize_ge, hid, initText_eq hnames, ?_, ?_⟩
  · have hlt := two_pow_selBits_lt h
    omega
  · intro p hp q hq heq
    obtain ⟨hslot, hsel⟩ := eq_of_row_eq (hrow hp.2.2) (hrow hq.2.2) heq
    exact Prod.ext hslot (hid.injOn hp.2.2 hq.2.2 (by exact_mod_cast hsel))
  · intro i name hi hslot hname
    refine ⟨?_, row_lt hslot (hrow hname).2 (Int.natCast_nonneg _)⟩
    have hfront := Int.mul_nonneg hi (Int.natCast_nonneg (2 ^ selBits names.length))
    omega

theorem switch_places_apart :
    let c : Counts := ⟨1, 0, 0, 3, 3⟩
    sizeNamed c 0 "SEL_COUNT" = 4 ∧ sizeNamed c 0 "CLASS_TABLE_SIZE" = 6 ∧
      Set.BijOn (selectorId ["on", "off", "flip"]) {name | name ∈ ["on", "off", "flip"]} {i | i < 3} ∧
      5 * 4 + (selectorId ["on", "off", "flip"] "on" : Int) < sizeNamed c 0 "FLAT_DISPATCH_TABLE_SIZE" := by
  obtain ⟨-, -, -, -, -, hid, -, -, hin⟩ :=
    flat_places_apart ⟨1, 0, 0, 3, 3⟩ 0 (by decide : ["on", "off", "flip"].Nodup) rfl
  exact ⟨rfl, rfl, hid, (hin 5 "on" (by decide) (by decide) (by decide)).2⟩

end ObjcLowering.DispatchTables
