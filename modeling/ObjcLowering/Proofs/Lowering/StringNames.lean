import ObjcLowering.Proofs.Lowering.BlockNames
import ObjcLowering.Proofs.Tables

/-! The names of string constants. -/

namespace ObjcLowering.Lowering

open Ast List

structure Numbered (t : Table String String) : Prop where
  nodup : t.names.Nodup
  values : t.values = (range t.entries.length).map (numberedName "_oz_str" 0)

theorem Numbered.nodup_values (h : Numbered t) : t.values.Nodup := by
  rw [h.values]
  exact nodup_range.map fun _ _ heq => (numberedName_injective heq).2

theorem Numbered.name_eq_iff (h : Numbered t) (hv : t.find? v = some name)
    (hw : t.find? w = some name') : name = name' ↔ v = w := by
  constructor
  · rintro rfl
    have hinj := inj_on_of_nodup_map (f := Prod.snd) h.nodup_values (Table.mem_of_find? hv)
      (Table.mem_of_find? hw) rfl
    exact congrArg Prod.fst hinj
  · rintro rfl
    exact Option.some.inj (hv.symm.trans hw)

def Interns (s s' : State) : Prop :=
  ∃ new, s'.literals.entries = s.literals.entries ++ new ∧
    s'.strings = s.strings ++ new.map fun e => stringConstant e.2 e.1

theorem internString_spec (h : Yields (internString literal .absent) env s name s')
    (hs : Numbered s.literals) :
    Numbered s'.literals ∧ s'.literals.find? literal = some name ∧ Interns s s' := by
  rw [internString, yields_get_bind] at h
  cases hfind : s.literals.find? literal with
  | some known =>
    rw [hfind] at h
    obtain ⟨rfl, rfl⟩ := yields_pure.mp h
    exact ⟨hs, hfind, [], by simp, by simp⟩
  | none =>
    rw [hfind] at h
    have hentries : (s.literals.set literal (numberedName "_oz_str" 0 s.literals.entries.length)).entries =
        s.literals.entries ++ [(literal, numberedName "_oz_str" 0 s.literals.entries.length)] :=
      Table.entries_set_of_notMem (Table.find?_eq_none_iff.mp hfind)
    cases h
    refine ⟨⟨Table.nodup_names_set hs.nodup .., ?_⟩, (Table.find?_set ..).trans (if_pos rfl), [_], hentries, rfl⟩
    have hvalues : (s.literals.set literal (numberedName "_oz_str" 0 s.literals.entries.length)).values =
        (range (s.literals.entries.length + 1)).map (numberedName "_oz_str" 0) := by
      rw [Table.values, hentries, map_append, range_succ, map_append, ← hs.values]
      rfl
    have hlength := congrArg length hentries
    rw [length_append] at hlength
    exact hvalues.trans (congrArg (fun k => (range k).map (numberedName "_oz_str" 0)) hlength.symm)

theorem Interns.find? (h : Interns s s') (hw : s.literals.find? w = some name) :
    s'.literals.find? w = some name := by
  obtain ⟨new, hnew, -⟩ := h
  rw [Table.find?, hnew, lookup_append, show s.literals.entries.lookup w = some name from hw]
  rfl

end ObjcLowering.Lowering
