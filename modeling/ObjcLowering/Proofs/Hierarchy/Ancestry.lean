import Mathlib.Data.List.Chain
import Mathlib.Data.List.Perm.Subperm
import Mathlib.Logic.Relation
import ObjcLowering.Hierarchy
import ObjcLowering.Proofs.Tables

/-! Ancestors in a module. -/

namespace ObjcLowering

open List

/-- The classes are found by their names, and all names are texts. -/
structure Module.Named (m : Module) : Prop where
  nodup : m.classes.names.Nodup
  name_eq : ∀ e ∈ m.classes.entries, e.2.name = e.1
  isText : ∀ e ∈ m.classes.entries, e.1.isText = true
  isText_superclass : ∀ e ∈ m.classes.entries, ∀ up ∈ e.2.superclass, up.isText = true

namespace Module.Named

variable {m : Module} (hm : m.Named)
include hm

theorem name_of_class? (h : m.class? a = some c) : c.name = a :=
  hm.name_eq _ (Table.mem_of_find? h)

theorem class?_name (h : c ∈ m.classes.values) : m.class? c.name = some c := by
  obtain ⟨name, hmem⟩ := Table.mem_values.mp h
  rw [hm.name_eq _ hmem]
  exact Table.find?_of_mem hm.nodup hmem

end Module.Named

def Module.ofLinks (links : List (String × Option String)) : Module :=
  { classes := ⟨links.map fun (name, up) =>
      (.text name, { name := .text name, superclass := up.map .text })⟩ }

theorem Module.named_ofLinks (links : List (String × Option String))
    (h : (links.map (·.1)).Nodup) : (Module.ofLinks links).Named := by
  refine ⟨?_, ?_, ?_, ?_⟩
  · have hnames : (Module.ofLinks links).classes.names = (links.map (·.1)).map Json.text := by
      simp [Module.ofLinks, Table.names]
    rw [hnames]
    exact h.map fun _ _ => Json.text.inj
  all_goals
    intro e he
    obtain ⟨link, -, rfl⟩ := mem_map.mp he
  · rfl
  · rfl
  · intro up hup
    obtain ⟨s, -, rfl⟩ := Option.map_eq_some_iff.mp hup
    rfl

theorem Module.mem_values_of_class? {m : Module} (h : m.class? a = some c) : c ∈ m.classes.values :=
  Table.mem_values.mpr ⟨a, Table.mem_of_find? h⟩

theorem Module.map_chainFrom {m n : Module} {f g : ClassDecl → β} {fuel : Nat}
    (h : ∀ {c d}, f c = g d → (m.parent? c).map f = (n.parent? d).map g) (hcd : f c = g d) :
    (m.chainFrom fuel c).map f = (n.chainFrom fuel d).map g := by
  induction fuel generalizing c d with
  | zero => rfl
  | succ fuel ih =>
    have hparent := h hcd
    rw [Module.chainFrom, Module.chainFrom]
    cases hup : m.parent? c with
    | none =>
      rw [hup] at hparent
      rw [Option.map_eq_none_iff.mp hparent.symm]
      exact congrArg (fun b => [b]) hcd
    | some up =>
      rw [hup] at hparent
      obtain ⟨up', hup', hsame⟩ := Option.map_eq_some_iff.mp hparent.symm
      rw [hup', map_cons, map_cons, hcd, ih hsame.symm]

namespace Hierarchy

variable {m : Module}

def Extends (m : Module) (a b : Name) : Prop :=
  ∃ c d, m.class? a = some c ∧ m.parent? c = some d ∧ d.name = b

def Cyclic (m : Module) : Prop := ∃ a, Relation.TransGen (Extends m) a a

abbrev Up (m : Module) (a b : Name) : Prop := above m a = some b

theorem above_eq_some :
    above m a = some b ↔ ∃ c, m.class? a = some c ∧ stated? c.superclass = some b := by
  unfold above
  cases m.class? a with
  | none => simp [stated?]
  | some c => simp

theorem mem_names_of_above (h : above m a = some b) : a ∈ m.classes.names := by
  obtain ⟨c, hc, -⟩ := above_eq_some.mp h
  exact Table.mem_names.mpr ⟨c, Table.mem_of_find? hc⟩

theorem parent?_eq_some :
    m.parent? c = some d ↔ ∃ up, stated? c.superclass = some up ∧ m.class? up = some d := by
  unfold Module.parent?
  cases stated? c.superclass <;> simp

theorem extends_iff (hm : m.Named) : Extends m a b ↔ above m a = some b ∧ b ∈ m.classes.names := by
  constructor
  · rintro ⟨c, d, hc, hd, rfl⟩
    obtain ⟨up, hup, hclass⟩ := parent?_eq_some.mp hd
    rw [hm.name_of_class? hclass]
    exact ⟨above_eq_some.mpr ⟨c, hc, hup⟩, Table.mem_names.mpr ⟨d, Table.mem_of_find? hclass⟩⟩
  · rintro ⟨habove, hb⟩
    obtain ⟨c, hc, hup⟩ := above_eq_some.mp habove
    obtain ⟨d, hd⟩ := Table.mem_names.mp hb
    have hclass : m.class? b = some d := Table.find?_of_mem hm.nodup hd
    exact ⟨c, d, hc, parent?_eq_some.mpr ⟨b, hup, hclass⟩, hm.name_of_class? hclass⟩

theorem transGen_extends_of_mem (hm : m.Named) (hb : b ∈ m.classes.names)
    (h : Relation.TransGen (Up m) a b) :
    Relation.TransGen (Extends m) a b := by
  induction h with
  | single h => exact .single ((extends_iff hm).mpr ⟨h, hb⟩)
  | tail _ h ih => exact .tail (ih (mem_names_of_above h)) ((extends_iff hm).mpr ⟨h, hb⟩)

theorem cyclic_iff (hm : m.Named) : Cyclic m ↔ ∃ a, Relation.TransGen (Up m) a a := by
  constructor
  · rintro ⟨a, h⟩
    exact ⟨a, Relation.TransGen.mono (fun _ _ h => ((extends_iff hm).mp h).1) a a h⟩
  · rintro ⟨a, h⟩
    obtain ⟨b, hb, -⟩ := Relation.TransGen.head'_iff.mp h
    exact ⟨a, transGen_extends_of_mem hm (mem_names_of_above hb) h⟩

/-- The names from `a` upwards are the given ones, and then there are no more. -/
inductive Climbs (m : Module) : Name → List Name → Prop
  | top {a : Name} : above m a = none → Climbs m a [a]
  | up {a b : Name} {rest : List Name} : above m a = some b → Climbs m b rest →
      Climbs m a (a :: rest)

namespace Climbs

variable (h : Climbs m a names)

include h

theorem unique (h' : Climbs m a names') : names = names' := by
  induction h generalizing names' with
  | top hnone =>
    cases h' with
    | top _ => rfl
    | up hsome _ => rw [hnone] at hsome; cases hsome
  | up hsome _ ih =>
    cases h' with
    | top hnone => rw [hnone] at hsome; cases hsome
    | up hsome' h' =>
      rw [hsome] at hsome'
      cases hsome'
      rw [ih h']

theorem exists_suffix (hb : b ∈ names) :
    ∃ rest, Climbs m b rest ∧ rest <:+ names := by
  induction h with
  | top hnone =>
    rw [mem_singleton.mp hb]
    exact ⟨_, .top hnone, suffix_rfl⟩
  | up hsome hrest ih =>
    cases hb with
    | head => exact ⟨_, .up hsome hrest, suffix_rfl⟩
    | tail _ hb =>
      obtain ⟨rest, hclimbs, hsuffix⟩ := ih hb
      exact ⟨rest, hclimbs, hsuffix.trans (suffix_cons _ _)⟩

theorem nodup : names.Nodup := by
  induction h with
  | top _ => simp
  | up hsome hrest ih =>
    refine nodup_cons.mpr ⟨fun hmem => ?_, ih⟩
    obtain ⟨rest, hclimbs, hsuffix⟩ := hrest.exists_suffix hmem
    rw [hclimbs.unique (.up hsome hrest)] at hsuffix
    exact absurd hsuffix.length_le (by simp)

theorem dropLast_subset : names.dropLast ⊆ m.classes.names := by
  induction h with
  | top _ => simp
  | @up a b rest hsome hrest ih =>
    cases rest with
    | nil => simp
    | cons b rest =>
      rw [dropLast_cons_cons]
      exact cons_subset.mpr ⟨mem_names_of_above hsome, ih⟩

theorem length_le : names.length ≤ m.classes.entries.length + 1 := by
  have hnodup := h.nodup.sublist (dropLast_sublist names)
  have hlength := (hnodup.subperm h.dropLast_subset).length_le
  rw [length_dropLast, Table.length_names] at hlength
  omega

theorem mem : a ∈ names := by
  cases h <;> simp

theorem mem_of_reflTransGen
    (hb : Relation.ReflTransGen (Up m) a b) : b ∈ names := by
  induction hb using Relation.ReflTransGen.head_induction_on generalizing names with
  | refl => exact h.mem
  | head hstep _ ih =>
    cases h with
    | top hnone => rw [Up, hnone] at hstep; cases hstep
    | up hsome hrest =>
      rw [Up, hsome] at hstep
      cases hstep
      exact .tail _ (ih hrest)

theorem reflTransGen_of_mem (hb : b ∈ names) :
    Relation.ReflTransGen (Up m) a b := by
  induction h with
  | top _ => rw [mem_singleton.mp hb]
  | up hsome _ ih =>
    cases hb with
    | head => exact .refl
    | tail _ hb => exact .head hsome (ih hb)

theorem not_cycle : ¬ Relation.TransGen (Up m) a a := by
  intro hround
  obtain ⟨b, hb, hback⟩ := Relation.TransGen.head'_iff.mp hround
  have hnodup := h.nodup
  cases h with
  | top hnone => rw [Up, hnone] at hb; cases hb
  | up hsome hrest =>
    rw [Up, hsome] at hb
    cases hb
    exact (nodup_cons.mp hnodup).1 (hrest.mem_of_reflTransGen hback)

end Climbs

/-- The way up from `a` begins with distinct names, and the next name is `x`, one of them. -/
def FirstRepeat (m : Module) (a x : Name) : Prop :=
  ∃ path, path.head? = some a ∧ path.Nodup ∧ x ∈ path ∧ (path ++ [x]).IsChain (Up m)

def RunsIntoCycle (m : Module) (a : Name) : Prop :=
  ∃ x, Relation.ReflTransGen (Up m) a x ∧ Relation.TransGen (Up m) x x

theorem reflTransGen_of_isChain (h : (a :: path).IsChain (Up m))
    (hx : x ∈ a :: path) : Relation.ReflTransGen (Up m) a x := by
  induction path generalizing a with
  | nil => rw [mem_singleton.mp hx]
  | cons b path ih =>
    rw [isChain_cons_cons] at h
    cases hx with
    | head => exact .refl
    | tail _ hx => exact .head h.1 (ih h.2 hx)

theorem FirstRepeat.runsIntoCycle (h : FirstRepeat m a x) : RunsIntoCycle m a := by
  obtain ⟨path, hhead, -, hx, hchain⟩ := h
  have hreach : Relation.ReflTransGen (Up m) a x := by
    cases path with
    | nil => cases hx
    | cons b path =>
      cases hhead
      exact reflTransGen_of_isChain (isChain_append.mp hchain).1 hx
  obtain ⟨before, after, rfl⟩ := append_of_mem hx
  rw [append_assoc] at hchain
  have hround := (isChain_append.mp hchain).2.1
  refine ⟨x, hreach, ?_⟩
  cases after with
  | nil => exact .single (isChain_pair.mp hround)
  | cons b after =>
    obtain ⟨hb, hrest⟩ := isChain_cons_cons.mp hround
    exact .head' hb (reflTransGen_of_isChain hrest (by simp))

theorem RunsIntoCycle.not_climbs (h : RunsIntoCycle m a) : ¬ Climbs m a names := by
  obtain ⟨x, hreach, hround⟩ := h
  intro hclimbs
  obtain ⟨rest, hrest, -⟩ := hclimbs.exists_suffix (hclimbs.mem_of_reflTransGen hreach)
  exact hrest.not_cycle hround

section

theorem subset_names_of_isChain (h : (visited.reverse ++ [a]).IsChain (Up m)) :
    visited ⊆ m.classes.names := by
  intro b hb
  obtain ⟨before, after, hsplit⟩ := append_of_mem (mem_reverse.mpr hb)
  rw [hsplit, append_assoc] at h
  have hrest := (isChain_append.mp h).2.1
  cases after with
  | nil => exact mem_names_of_above (isChain_cons_cons.mp hrest).1
  | cons y after => exact mem_names_of_above (isChain_cons_cons.mp hrest).1

theorem isChain_snoc_snoc (h : (visited.reverse ++ [a]).IsChain (Up m)) (hup : above m a = some b) :
    ((a :: visited).reverse ++ [b]).IsChain (Up m) := by
  rw [reverse_cons, isChain_append]
  refine ⟨h, isChain_singleton b, ?_⟩
  simpa using hup

theorem firstRepeat_of_eq_some (hvisited : visited.Nodup)
    (hchain : (visited.reverse ++ [a]).IsChain (Up m))
    (h : firstRepeat? m fuel visited a = some x) :
    ∃ path, path.head? = (visited.reverse ++ [a]).head? ∧ path.Nodup ∧ x ∈ path ∧
      (path ++ [x]).IsChain (Up m) := by
  induction fuel generalizing visited a with
  | zero => cases h
  | succ fuel ih =>
    rw [firstRepeat?] at h
    split at h
    · next hmem =>
      cases h
      rw [contains_iff_mem] at hmem
      refine ⟨visited.reverse, ?_, nodup_reverse.mpr hvisited, mem_reverse.mpr hmem, hchain⟩
      cases hrev : visited.reverse with
      | nil => simp [reverse_eq_nil_iff.mp hrev] at hmem
      | cons b rest => rfl
    · next hmem =>
      rw [contains_iff_mem] at hmem
      cases hup : above m a with
      | none => rw [hup] at h; cases h
      | some b =>
        rw [hup] at h
        obtain ⟨path, hhead, hpath⟩ :=
          ih (nodup_cons.mpr ⟨hmem, hvisited⟩) (isChain_snoc_snoc hchain hup) h
        refine ⟨path, ?_, hpath⟩
        rw [hhead, reverse_cons]
        cases visited.reverse <;> rfl

theorem climbs_of_eq_none (hvisited : visited.Nodup)
    (hchain : (visited.reverse ++ [a]).IsChain (Up m))
    (hfuel : m.classes.entries.length < fuel + visited.length)
    (h : firstRepeat? m fuel visited a = none) : ∃ names, Climbs m a names := by
  induction fuel generalizing visited a with
  | zero =>
    have hlength := (hvisited.subperm (subset_names_of_isChain hchain)).length_le
    rw [Table.length_names] at hlength
    omega
  | succ fuel ih =>
    rw [firstRepeat?] at h
    split at h
    · cases h
    · next hmem =>
      rw [contains_iff_mem] at hmem
      cases hup : above m a with
      | none => exact ⟨_, .top hup⟩
      | some b =>
        rw [hup] at h
        obtain ⟨names, hnames⟩ := ih (nodup_cons.mpr ⟨hmem, hvisited⟩)
          (isChain_snoc_snoc hchain hup) (by rw [length_cons]; omega) h
        exact ⟨_, .up hup hnames⟩

end

theorem cycleAt?_eq_some (h : cycleAt? m a = some x) : FirstRepeat m a x :=
  firstRepeat_of_eq_some nodup_nil (isChain_singleton a) h

theorem cycleAt?_eq_none_iff : cycleAt? m a = none ↔ ∃ names, Climbs m a names := by
  constructor
  · exact climbs_of_eq_none nodup_nil (isChain_singleton a) (by simp)
  · rintro ⟨names, hnames⟩
    cases hcycle : cycleAt? m a with
    | none => rfl
    | some x => exact absurd hnames (cycleAt?_eq_some hcycle).runsIntoCycle.not_climbs

theorem cycleAt?_isSome_iff : (cycleAt? m a).isSome = true ↔ RunsIntoCycle m a := by
  constructor
  · intro h
    obtain ⟨x, hx⟩ := Option.isSome_iff_exists.mp h
    exact (cycleAt?_eq_some hx).runsIntoCycle
  · intro h
    cases hcycle : cycleAt? m a with
    | some x => rfl
    | none =>
      obtain ⟨names, hnames⟩ := cycleAt?_eq_none_iff.mp hcycle
      exact absurd hnames h.not_climbs

theorem cyclic_iff_exists_runsIntoCycle (hm : m.Named) :
    Cyclic m ↔ ∃ c ∈ m.classes.values, RunsIntoCycle m c.name := by
  rw [cyclic_iff hm]
  constructor
  · rintro ⟨a, hround⟩
    obtain ⟨b, hb, -⟩ := Relation.TransGen.head'_iff.mp hround
    obtain ⟨c, hc, -⟩ := above_eq_some.mp hb
    refine ⟨c, Module.mem_values_of_class? hc, a, ?_, hround⟩
    rw [hm.name_of_class? hc]
  · rintro ⟨c, -, x, -, hround⟩
    exact ⟨x, hround⟩

end Hierarchy

end ObjcLowering
