import ObjcLowering.Proofs.RetainCycles.Search

/-! Inherited references. -/

namespace ObjcLowering.RetainCycles

open Relation List

variable {supers : Table String (Option String)}

/-- The hierarchy names `b` as the superclass of `a`. An empty name is none. -/
def Inherits (supers : Table String (Option String)) (a b : String) : Prop :=
  (supers.find? a).getD none = some b ∧ b ≠ ""

theorem mem_names_of_super (h : (supers.find? a).getD none = some b) : a ∈ supers.names := by
  cases hfind : supers.find? a with
  | none => simp [hfind] at h
  | some up => exact Table.mem_names.mpr ⟨up, Table.mem_of_find? hfind⟩

theorem reflTransGen_of_mem_ancestorsFrom (h : x ∈ ancestorsFrom supers fuel visited cur) :
    ∃ b, cur = some b ∧ b ≠ "" ∧ ReflTransGen (Inherits supers) b x := by
  induction fuel generalizing visited cur with
  | zero => simp [ancestorsFrom] at h
  | succ fuel ih =>
    cases cur with
    | none => simp [ancestorsFrom] at h
    | some b =>
      rw [ancestorsFrom] at h
      by_cases hstop : (b = "" || visited.contains b) = true
      · rw [if_pos hstop] at h
        cases h
      · rw [if_neg hstop, mem_cons] at h
        have hb : b ≠ "" := fun heq => hstop (by simp [heq])
        refine ⟨b, rfl, hb, ?_⟩
        rcases h with rfl | h
        · exact .refl
        · obtain ⟨c, hc, hne, hreach⟩ := ih h
          exact .head ⟨hc, hne⟩ hreach

/-- What the walk has passed is closed under superclasses in the end: it stops at a class that it has
passed before, or where there is no superclass. -/
theorem ancestorsFrom_closed (supers : Table String (Option String)) (fuel : Nat) (cur : Option String)
    (hnodup : visited.Nodup) (hnames : cur.isSome → visited ⊆ supers.names)
    (hfuel : supers.entries.length < fuel + visited.length)
    (hvisited : ∀ a ∈ visited, ∀ b, Inherits supers a b → b ∈ visited ∨ cur = some b) :
    (∀ b, cur = some b → b ≠ "" → b ∈ visited ++ ancestorsFrom supers fuel visited cur) ∧
      ∀ a ∈ visited ++ ancestorsFrom supers fuel visited cur, ∀ b, Inherits supers a b →
        b ∈ visited ++ ancestorsFrom supers fuel visited cur := by
  induction fuel generalizing visited cur with
  | zero =>
    -- a class is left to pass only if there are more classes than those passed
    have hnone : cur = none := by
      rw [← Option.not_isSome_iff_eq_none]
      intro hsome
      have hlength := (hnodup.subperm (hnames hsome)).length_le
      rw [Table.length_names] at hlength
      omega
    subst hnone
    simpa [ancestorsFrom] using hvisited
  | succ fuel ih =>
    cases cur with
    | none => simpa [ancestorsFrom] using hvisited
    | some c =>
      rw [ancestorsFrom]
      by_cases hstop : (c = "" || visited.contains c) = true
      · rw [if_pos hstop, append_nil]
        have hstop : c = "" ∨ c ∈ visited := by simpa using hstop
        refine ⟨fun b hb hne => ?_, fun a ha b hab => ?_⟩
        · cases hb
          exact hstop.resolve_left hne
        · refine (hvisited a ha b hab).elim id fun hb => ?_
          cases hb
          exact hstop.resolve_left hab.2
      · rw [if_neg hstop]
        have hfresh : c ∉ visited := fun hmem => hstop (by simp [hmem])
        have hnames' : ((supers.find? c).getD none).isSome → c :: visited ⊆ supers.names := by
          intro hsome
          obtain ⟨b, hb⟩ := Option.isSome_iff_exists.mp hsome
          exact cons_subset.mpr ⟨mem_names_of_super hb, hnames rfl⟩
        have hvisited' : ∀ a ∈ c :: visited, ∀ b, Inherits supers a b →
            b ∈ c :: visited ∨ (supers.find? c).getD none = some b := by
          intro a ha b hab
          rcases mem_cons.mp ha with rfl | ha
          · exact .inr hab.1
          · rcases hvisited a ha b hab with hb | hb
            · exact .inl (.tail _ hb)
            · cases hb
              exact .inl (.head _)
        obtain ⟨-, hclosed⟩ := ih _ (nodup_cons.mpr ⟨hfresh, hnodup⟩) hnames'
          (by rw [length_cons]; omega) hvisited'
        generalize ancestorsFrom supers fuel (c :: visited) ((supers.find? c).getD none) = rest at hclosed ⊢
        simp only [cons_append, mem_append, mem_cons] at hclosed ⊢
        refine ⟨fun b hb _ => ?_, fun a ha b hab => ?_⟩
        · cases hb
          exact .inr (.inl rfl)
        · exact or_left_comm.mp (hclosed a (or_left_comm.mpr ha) b hab)

theorem mem_ancestors_iff : x ∈ ancestors supers cls ↔ TransGen (Inherits supers) cls x := by
  unfold ancestors
  constructor
  · intro h
    obtain ⟨b, hb, hne, hreach⟩ := reflTransGen_of_mem_ancestorsFrom h
    exact .head' ⟨hb, hne⟩ hreach
  · intro h
    obtain ⟨hfirst, hclosed⟩ := ancestorsFrom_closed supers (supers.entries.length + 1)
      ((supers.find? cls).getD none) nodup_nil (fun _ => nil_subset _) (by simp) (by simp)
    rw [nil_append] at hfirst hclosed
    obtain ⟨b, hb, hreach⟩ := TransGen.head'_iff.mp h
    induction hreach with
    | refl => exact hfirst b hb.1 hb.2
    | tail hreach hstep ih => exact hclosed _ (ih (.head' hb hreach)) _ hstep

def refsOf (table : Table String (List StrongRef)) (cls : String) : List StrongRef :=
  (table.find? cls).getD []

theorem mem_refsOf_addRefs : r ∈ refsOf (addRefs table cls rs) a ↔ r ∈ refsOf table a ∨ a = cls ∧ r ∈ rs := by
  unfold addRefs refsOf
  split
  · next hempty => simp [isEmpty_iff.mp hempty]
  · rw [Table.find?_set]
    by_cases ha : a = cls
    · subst ha
      simp [mem_addAllNew]
    · simp [ha]

theorem nodup_names_addRefs (h : table.names.Nodup) (cls : String) (rs : List StrongRef) :
    (addRefs table cls rs).names.Nodup := by
  unfold addRefs
  split
  · exact h
  · exact Table.nodup_names_set h _ _

def inheritFrom (refs : Table String (List StrongRef)) (cls : String) (above : List String)
    (table : Table String (List StrongRef)) : Table String (List StrongRef) :=
  above.foldl (fun table ancestor => addRefs table cls (refsOf refs ancestor)) table

theorem inheritRefs_eq (supers : Table String (Option String)) (refs : Table String (List StrongRef)) :
    inheritRefs supers refs =
      supers.names.foldl (fun table cls => inheritFrom refs cls (ancestors supers cls) table) refs := rfl

theorem mem_refsOf_inheritFrom : r ∈ refsOf (inheritFrom refs cls above table) a ↔
      r ∈ refsOf table a ∨ a = cls ∧ ∃ b ∈ above, r ∈ refsOf refs b := by
  unfold inheritFrom
  induction above generalizing table with
  | nil => simp
  | cons b above ih =>
    rw [foldl_cons, ih, mem_refsOf_addRefs, or_assoc, ← and_or_left]
    simp

theorem nodup_names_inheritFrom (h : table.names.Nodup) : (inheritFrom refs cls above table).names.Nodup := by
  unfold inheritFrom
  induction above generalizing table with
  | nil => exact h
  | cons b above ih => exact ih (nodup_names_addRefs h _ _)

theorem mem_refsOf_foldl {names : List String} :
    r ∈ refsOf (names.foldl (fun table cls => inheritFrom refs cls (ancestors supers cls) table) table) a ↔
      r ∈ refsOf table a ∨ a ∈ names ∧ ∃ b ∈ ancestors supers a, r ∈ refsOf refs b := by
  induction names generalizing table with
  | nil => simp
  | cons cls names ih =>
    rw [foldl_cons, ih, mem_refsOf_inheritFrom, or_assoc, mem_cons, or_and_right]
    by_cases ha : a = cls
    · subst ha
      rfl
    · simp [ha]

theorem nodup_names_inheritRefs (h : refs.names.Nodup) : (inheritRefs supers refs).names.Nodup := by
  have hfold : ∀ (names : List String) (table : Table String (List StrongRef)), table.names.Nodup →
      (names.foldl (fun table cls => inheritFrom refs cls (ancestors supers cls) table) table).names.Nodup := by
    intro names
    induction names with
    | nil => exact fun table h => h
    | cons cls names ih => exact fun table h => ih _ (nodup_names_inheritFrom h)
  rw [inheritRefs_eq]
  exact hfold _ _ h

theorem mem_refsOf_inheritRefs : r ∈ refsOf (inheritRefs supers refs) a ↔
    ∃ b, ReflTransGen (Inherits supers) a b ∧ r ∈ refsOf refs b := by
  rw [inheritRefs_eq, mem_refsOf_foldl]
  constructor
  · rintro (h | ⟨-, b, hb, h⟩)
    · exact ⟨a, .refl, h⟩
    · exact ⟨b, (mem_ancestors_iff.mp hb).to_reflTransGen, h⟩
  · rintro ⟨b, hreach, h⟩
    rcases reflTransGen_iff_eq_or_transGen.mp hreach with rfl | hreach
    · exact .inl h
    · obtain ⟨c, hc, -⟩ := TransGen.head'_iff.mp hreach
      exact .inr ⟨mem_names_of_super hc.1, b, mem_ancestors_iff.mpr hreach, h⟩

/-- A class, or one of its ancestors, has a strong reference to `target`. -/
def Retains (supers : Table String (Option String)) (refs : Table String (List StrongRef))
    (cls target : String) : Prop :=
  ∃ b, ReflTransGen (Inherits supers) cls b ∧ ∃ r ∈ refsOf refs b, r.target = target

theorem nodup_names_graphOf (h : table.names.Nodup) : (graphOf table).names.Nodup := by
  have hsub : (graphOf table).names.Sublist table.names := by
    simp only [graphOf, Table.names, List.map_map]
    exact List.filter_sublist.map _
  exact h.sublist hsub

theorem edge_graphOf_iff (h : table.names.Nodup) :
    Edge (graphOf table) a b ↔ ∃ r ∈ refsOf table a, r.target = b := by
  unfold Edge successors refsOf
  rw [Table.mem_getD_find? (nodup_names_graphOf h)]
  simp only [Table.mem_getD_find? h, graphOf, mem_map, mem_filter]
  constructor
  · rintro ⟨targets, ⟨⟨cls, rs⟩, ⟨hentry, -⟩, heq⟩, hb⟩
    cases heq
    simp only [sortNames, sortByName, mem_mergeSort, mem_distinct, mem_map] at hb
    obtain ⟨r, hr, hb⟩ := hb
    exact ⟨r, ⟨rs, hentry, hr⟩, hb⟩
  · rintro ⟨r, ⟨rs, hentry, hr⟩, rfl⟩
    refine ⟨_, ⟨(a, rs), ⟨hentry, by simpa using ne_nil_of_mem hr⟩, rfl⟩, ?_⟩
    simp only [sortNames, sortByName, mem_mergeSort, mem_distinct]
    exact mem_map_of_mem hr

def SameEdges (graph graph' : Table String (List String)) : Prop :=
  Forall₂ (fun e e' => e'.1 = e.1 ∧ e'.2.Perm e.2) graph.entries graph'.entries

theorem SameEdges.edge_iff (h : SameEdges graph graph') : Edge graph' a b ↔ Edge graph a b := by
  obtain ⟨entries⟩ := graph
  obtain ⟨entries'⟩ := graph'
  dsimp only [SameEdges] at h
  dsimp only [Edge, successors, Table.find?]
  induction h with
  | nil => rfl
  | @cons e e' rest rest' hsame _ ih =>
    obtain ⟨n, targets⟩ := e
    obtain ⟨n', targets'⟩ := e'
    obtain ⟨rfl, hperm⟩ := hsame
    rw [lookup_cons, lookup_cons]
    cases a == n' with
    | true => exact hperm.mem_iff
    | false => exact ih

theorem edge_iff_retains (hrefs : refs.names.Nodup)
    (hgraph : SameEdges (graphOf (inheritRefs supers refs)) graph) :
    Edge graph a b ↔ Retains supers refs a b := by
  rw [hgraph.edge_iff, edge_graphOf_iff (nodup_names_inheritRefs hrefs)]
  simp only [mem_refsOf_inheritRefs, Retains]
  constructor
  · rintro ⟨r, ⟨c, hreach, hr⟩, hb⟩
    exact ⟨c, hreach, r, hr, hb⟩
  · rintro ⟨c, hreach, r, hr, hb⟩
    exact ⟨r, ⟨c, hreach, hr⟩, hb⟩

end ObjcLowering.RetainCycles
