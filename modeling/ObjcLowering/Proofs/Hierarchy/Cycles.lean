import ObjcLowering.Proofs.Hierarchy.Completion
import ObjcLowering.Proofs.Hierarchy.LockClass
import ObjcLowering.Proofs.Hierarchy.Walks

/-!
A module has a completion only without a cycle of superclasses, and the complaint names where the first
cycle is met.
-/

namespace ObjcLowering.Hierarchy

open Module

variable {m m' : Module}

/-- The fault names the first class from which the way up runs into a cycle, and the first name that
repeats above it. -/
def NamesCycle (m : Module) (f : Fault) : Prop :=
  ∃ before c after x, m.classes.values = before ++ c :: after ∧
    (∀ d ∈ before, ¬ RunsIntoCycle m d.name) ∧ RunsIntoCycle m c.name ∧ FirstRepeat m c.name x ∧
    f = .inheritanceCycle c.name.plain x.plain ∧
    f.message = "inheritance cycle detected: " ++ c.name.plain ++ " -> ... -> " ++ x.plain

theorem firstCycle?_eq_some (h : firstCycle? m = some (start, again)) :
    NamesCycle m (.inheritanceCycle start.plain again.plain) := by
  obtain ⟨before, c, after, hvalues, hfound, hbefore⟩ := List.findSome?_eq_some_iff.mp h
  obtain ⟨x, hx, hpair⟩ := Option.map_eq_some_iff.mp hfound
  cases hpair
  have hrepeat := cycleAt?_eq_some hx
  refine ⟨before, c, after, again, hvalues, fun d hd hcycle => ?_, hrepeat.runsIntoCycle, hrepeat,
    rfl, rfl⟩
  have hnone := hbefore d hd
  rw [Option.map_eq_none_iff] at hnone
  simpa [hnone] using cycleAt?_isSome_iff.mpr hcycle

section

variable (hm : m.Named)

include hm

theorem firstCycle?_eq_none_iff : firstCycle? m = none ↔ ¬ Cyclic m := by
  rw [cyclic_iff_exists_runsIntoCycle hm, firstCycle?, List.findSome?_eq_none_iff]
  simp only [Option.map_eq_none_iff, ← cycleAt?_isSome_iff, not_exists, not_and,
    Bool.not_eq_true, Option.isSome_eq_false_iff, Option.isNone_iff_eq_none]

theorem checkSuperclasses_eq_ok :
    (m.classes.values.forM fun c => discard ((stated? c.superclass).mapM Json.asKey)) = .ok () := by
  have hall : ∀ c ∈ m.classes.values,
      discard ((stated? c.superclass).mapM Json.asKey) = (.ok () : Except Fault Unit) := by
    intro c hc
    obtain ⟨a, hmem⟩ := Table.mem_values.mp hc
    cases hup : stated? c.superclass with
    | none => rfl
    | some up =>
      have htext : up.isText = true :=
        hm.isText_superclass _ hmem up (Option.filter_eq_some_iff.mp hup).1
      cases up <;> first | rfl | cases htext
  generalize m.classes.values = classes at hall
  induction classes with
  | nil => rfl
  | cons c classes ih =>
    have hrest := ih fun d hd => hall d (.tail _ hd)
    simp only [List.forM_eq_forM, List.forM_cons] at hrest ⊢
    rw [hall c (.head _)]
    exact hrest

theorem validate_eq_error (h : Cyclic m) :
    ∃ start again, validate m = .error (.inheritanceCycle start again) ∧
      NamesCycle m (.inheritanceCycle start again) := by
  cases hfirst : firstCycle? m with
  | none => exact absurd h ((firstCycle?_eq_none_iff hm).mp hfirst)
  | some found =>
    refine ⟨found.1.plain, found.2.plain, ?_, firstCycle?_eq_some hfirst⟩
    rw [validate, checkSuperclasses_eq_ok hm, hfirst]
    rfl

theorem validate_eq_ok (h : ¬ Cyclic m) :
    validate m = .ok (warnMissingSupers m) := by
  rw [validate, checkSuperclasses_eq_ok hm, (firstCycle?_eq_none_iff hm).mpr h]
  rfl

theorem forall_climbs_of_not_cyclic (h : ¬ Cyclic m) (a : Name) :
    ∃ names, Climbs m a names := by
  rw [← cycleAt?_eq_none_iff, ← Option.not_isSome_iff_eq_none, cycleAt?_isSome_iff]
  rintro ⟨x, -, hround⟩
  exact h ((cyclic_iff hm).mpr ⟨x, hround⟩)

theorem complete_eq_error (h : Cyclic m) :
    ∃ start again, m.complete = .error (.inheritanceCycle start again) ∧
      NamesCycle m (.inheritanceCycle start again) := by
  obtain ⟨start, again, hvalidate, hnames⟩ := validate_eq_error hm h
  refine ⟨start, again, ?_, hnames⟩
  rw [complete, hvalidate]
  rfl

theorem gives_complete (h : ¬ Cyclic m) :
    Gives (fun m' => m'.hierarchy = m.hierarchy ∧
      ∃ m₀ m₁, m₀.hierarchy = m.hierarchy ∧ assignIds m₀ = .ok m₁ ∧ m'.skeleton = m₁.skeleton)
      m.complete := by
  have hkeeps : (warnMissingSupers m).hierarchy = m.hierarchy := by
    rw [hierarchy, classes_warnMissingSupers, hierarchy]
  rw [complete, validate_eq_ok hm h, ← hkeeps]
  exact gives_afterValidation (warnMissingSupers m)

theorem walksEnd_of_hierarchy_eq (h : ¬ Cyclic m)
    (hsame : m'.hierarchy = m.hierarchy) : WalksEnd m' := by
  have hclimbs := forall_climbs_of_hierarchy_eq hm hsame (forall_climbs_of_not_cyclic hm h)
  exact walksEnd_of_climbs (hm.of_hierarchy_eq hsame) hclimbs

theorem walksEnd_withSpinLock (h : ∀ a, ∃ names, Climbs m a names)
    (hroot : root.isText = true) (hlock : m.withSpinLock root = .ok m')
    (hreach : AddsLock m m' → ¬ ReachesLock m root) : WalksEnd m' := by
  rcases withSpinLock_eq_ok hlock with rfl | hwith
  · exact walksEnd_of_climbs hm h
  · exact walksEnd_of_climbs (hwith.named hm hroot)
      ((hwith.forall_climbs_iff h).mpr (hreach hwith.addsLock))

end

end ObjcLowering.Hierarchy
