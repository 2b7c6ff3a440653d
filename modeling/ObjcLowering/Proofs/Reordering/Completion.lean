import ObjcLowering.Proofs.Hierarchy.SuperIds
import ObjcLowering.Proofs.Reordering.Passes

/-!
The completion of a module does not depend on the order of its classes, but for the order of complaints.
-/

namespace ObjcLowering

open List

variable {m m' : Module}

namespace Hierarchy

theorem map_classesById_eq (h : Reorders Alike m m') (hids : (m.classes.values.map (·.id)).Nodup) :
    (classesById m).map ClassDecl.unnumbered = (classesById m').map ClassDecl.unnumbered := by
  let le (a b : ClassDecl) : Bool := a.id ≤ b.id
  have hmap : ∀ classes : List ClassDecl,
      (classes.mergeSort le).map ClassDecl.unnumbered = (classes.map ClassDecl.unnumbered).mergeSort le :=
    fun classes => map_mergeSort fun _ _ _ _ => rfl
  have hsorted : ∀ classes : List ClassDecl, (classes.mergeSort le).Pairwise fun a b => a.id ≤ b.id := by
    intro classes
    refine (pairwise_mergeSort ?_ ?_ classes).imp fun hab => of_decide_eq_true hab
    · intro a b c hab hbc
      exact decide_eq_true ((of_decide_eq_true hab).trans (of_decide_eq_true hbc))
    · intro a b
      simpa [le] using le_total a.id b.id
  have hperm : (m.classes.values.map ClassDecl.unnumbered).Perm
      (m'.classes.values.map ClassDecl.unnumbered) := h.values.map_perm fun _ _ hcd => hcd.unnumbered_eq
  unfold classesById
  rw [hmap, hmap]
  refine Perm.eq_of_pairwise (fun a b ha hb hab hba => ?_) (hsorted _) (hsorted _)
    ((mergeSort_perm _ _).trans (hperm.trans (mergeSort_perm _ _).symm))
  have hdistinct : ((m.classes.values.map ClassDecl.unnumbered).map (·.id)).Nodup := by
    rw [map_map]
    exact hids
  refine inj_on_of_nodup_map hdistinct ((mergeSort_perm _ _).mem_iff.mp ha) ?_ (le_antisymm hab hba)
  exact hperm.mem_iff.mpr ((mergeSort_perm _ _).mem_iff.mp hb)

end Hierarchy

namespace Methods

theorem initializer?_unnumbered (c : ClassDecl) :
    initializer? c.unnumbered = (initializer? c).map Method.unnumbered := by
  unfold initializer? ClassDecl.unnumbered
  rw [find?_map]
  rfl

theorem guardWarnings_unnumbered (c : ClassDecl) : guardWarnings c.unnumbered = guardWarnings c := by
  unfold guardWarnings
  rw [initializer?_unnumbered]
  cases initializer? c <;> rfl

theorem initialized_unnumbered (c : ClassDecl) : initialized c.unnumbered = initialized c := by
  unfold initialized
  rw [initializer?_unnumbered]
  cases initializer? c <;> rfl

end Methods

/-- Two completed modules have the same classes, up to the numbers of their properties and their order,
the same initialisers and, up to order, the same errors and warnings. -/
structure SameOutcome (m m' : Module) : Prop where
  classes : ∀ a, (m.class? a).map ClassDecl.unnumbered = (m'.class? a).map ClassDecl.unnumbered
  initializers : m.initializers = m'.initializers
  errors : m.errors.Perm m'.errors
  diagnostics : m.diagnostics.Perm m'.diagnostics

theorem sameOutcome_collectInitializers (h : Reorders Alike m m') (hm : m.Named)
    (hids : (m.classes.values.map (·.id)).Nodup) :
    SameOutcome (Methods.collectInitializers m) (Methods.collectInitializers m') := by
  have hviews : ∀ {β : Type} (view : ClassDecl → List β), (∀ c, view c.unnumbered = view c) →
      (Hierarchy.classesById m).flatMap view = (Hierarchy.classesById m').flatMap view := by
    intro β view hview
    have heq := congrArg (flatMap view) (Hierarchy.map_classesById_eq h hids)
    simpa only [flatMap_map, hview] using heq
  have hinitializers : m.initializers = m'.initializers := by
    cases h
    rfl
  unfold Methods.collectInitializers
  rw [Methods.foldl_addInitializer, Methods.foldl_addInitializer,
    hviews _ Methods.guardWarnings_unnumbered, hviews _ Methods.initialized_unnumbered, hinitializers]
  exact ⟨fun a => map_eq_of_rel (Hierarchy.rel_class? h hm a) fun _ _ hcd => hcd.unnumbered_eq, rfl,
    h.errors, h.diagnostics.append_right _⟩

def Module.Numbered (m : Module) : Prop := m.Named ∧ (m.classes.values.map (·.id)).Nodup

theorem Module.Numbered.of_skeleton_eq (hm : m.Numbered) (h : m'.skeleton = m.skeleton) :
    m'.Numbered := by
  refine ⟨hm.1.of_hierarchy_eq (hierarchy_eq_of_skeleton_eq h), ?_⟩
  have hids : m'.classes.values.map (·.id) = m.classes.values.map (·.id) := by
    have hviews := congrArg (map (·.2.2.2)) h
    simpa [skeleton, Table.values, Function.comp_def] using hviews
  rw [hids]
  exact hm.2

namespace Hierarchy

theorem numbered_of_assignIds (hm : m.Named) (hclimbs : ∀ a, ∃ names, Climbs m a names)
    (h : assignIds m = .ok m') : m'.Numbered := by
  have hkeep := (gives_assignIds m).of_ok h
  have hm' := hm.of_hierarchy_eq hkeep
  have hperm := (ordered_orderOf hm hclimbs).2
  rw [← Module.names_eq_of_hierarchy_eq hkeep] at hperm
  have hdense := (idsFrom_of_assignIds hm h).dense hm' hperm
  refine ⟨hm', hdense.nodup_iff.mpr ?_⟩
  exact nodup_range.map fun _ _ => Int.ofNat.inj

theorem agree_afterNumbering (h : Reorders Alike m m') (hm : m.Numbered) :
    Agree SameOutcome
      (do
        let m ← Methods.classify (computeDepths m)
        let m ← Methods.checkConformance m
        let m ← TypeArguments.validate m
        return Methods.collectInitializers m)
      (do
        let m ← Methods.classify (computeDepths m')
        let m ← Methods.checkConformance m
        let m ← TypeArguments.validate m
        return Methods.collectInitializers m) := by
  have hdepths := reorders_computeDepths h hm.1
  have hnumbered := hm.of_skeleton_eq (skeleton_computeDepths m)
  refine agree_bind ((Methods.agree_classify hdepths).with_left fun r hr =>
    hnumbered.of_skeleton_eq ((Methods.gives_classify _).of_ok hr)) fun m₁ m₁' h₁ => ?_
  refine agree_bind ((Methods.agree_checkConformance h₁.1 h₁.2.1).with_left fun r hr =>
    h₁.2.of_skeleton_eq ((Methods.gives_checkConformance _).of_ok hr)) fun m₂ m₂' h₂ => ?_
  refine agree_bind ((TypeArguments.agree_validate h₂.1 h₂.2.1).with_left fun r hr =>
    h₂.2.of_skeleton_eq ((TypeArguments.gives_validate _).of_ok hr)) fun m₃ m₃' h₃ => ?_
  exact agree_pure (sameOutcome_collectInitializers h₃.1 h₃.2.1 h₃.2.2)

theorem agree_complete (h : Reorders (· = ·) m m') (hm : m.Named) (hm' : m'.Named)
    (hcyclic : ¬ Cyclic m) (hcyclic' : ¬ Cyclic m') : Agree SameOutcome m.complete m'.complete := by
  have hwarned : (warnMissingSupers m).hierarchy = m.hierarchy := by
    rw [Module.hierarchy, classes_warnMissingSupers, Module.hierarchy]
  rw [Module.complete, Module.complete, validate_eq_ok hm hcyclic, validate_eq_ok hm' hcyclic']
  refine agree_bind (R := fun a b => a = warnMissingSupers m ∧ b = warnMissingSupers m') (.ok ⟨rfl, rfl⟩) ?_
  rintro _ _ ⟨rfl, rfl⟩
  refine agree_bind ((Properties.agree_synthesize (reorders_warnMissingSupers h)).with_left fun r hr =>
    (Properties.gives_synthesize _).of_ok hr) fun m₀ m₀' h₀ => ?_
  have hkeep : (Methods.checkDuplicates m₀).hierarchy = m.hierarchy :=
    (Module.hierarchy_eq_of_skeleton_eq h₀.2).trans hwarned
  have hnamed := hm.of_hierarchy_eq hkeep
  have hclimbs := forall_climbs_of_hierarchy_eq hm hkeep (forall_climbs_of_not_cyclic hm hcyclic)
  refine agree_bind ((agree_assignIds (Methods.reorders_checkDuplicates h₀.1) hnamed).with_left
    fun r hr => numbered_of_assignIds hnamed hclimbs hr) fun m₁ m₁' h₁ => ?_
  exact agree_afterNumbering h₁.1 h₁.2

theorem cyclic_congr (h : SameLinks m m') (hm : m.Named) (hm' : m'.Named) : Cyclic m ↔ Cyclic m' := by
  have hextends : Extends m = Extends m' := by
    funext a b
    exact propext (h.extends_iff_extends hm hm')
  unfold Cyclic
  rw [hextends]

end Hierarchy

open Hierarchy in
/-- Classes in another order are refused with a cycle, as they are in the first order, and completed to
the same outcome without one. Then completion can only fail on a value of the wrong kind, and does so
for both orders. -/
theorem complete_of_perm (m : Module) (entries : List (Name × ClassDecl)) (hm : m.Named)
    (hperm : m.classes.entries.Perm entries) :
    (Cyclic m → ∀ n ∈ [m, { m with classes := ⟨entries⟩ }],
      ∃ start again, n.complete = .error (.inheritanceCycle start again)) ∧
    (¬ Cyclic m →
      ((∃ r, m.complete = .ok r) ↔ ∃ r, { m with classes := ⟨entries⟩ }.complete = .ok r) ∧
      (∀ f, m.complete = .error f → f.IsMisfit) ∧
      ∀ r r', m.complete = .ok r → { m with classes := ⟨entries⟩ }.complete = .ok r' →
        SameOutcome r r') := by
  have hreorders : Reorders (· = ·) m { m with classes := ⟨entries⟩ } :=
    .intro (.of_perm hperm fun _ _ => ⟨rfl, rfl⟩) (.refl _) (.refl _)
  have heq : ∀ c d : ClassDecl, c = d → c.name = d.name ∧ c.superclass = d.superclass :=
    fun c d hcd => hcd ▸ ⟨rfl, rfl⟩
  have hm' := hreorders.named hm heq
  have hcyclic := cyclic_congr (hreorders.sameLinks heq) hm hm'
  refine ⟨fun h n hn => ?_, fun h => ?_⟩
  · rcases mem_cons.mp hn with rfl | hn
    · obtain ⟨start, again, herror, -⟩ := complete_eq_error hm h
      exact ⟨start, again, herror⟩
    · cases mem_singleton.mp hn
      obtain ⟨start, again, herror, -⟩ := complete_eq_error hm' (hcyclic.mp h)
      exact ⟨start, again, herror⟩
  · have hagree := agree_complete hreorders hm hm' h (mt hcyclic.mpr h)
    exact ⟨hagree.exists_ok_iff, fun f hf => (gives_complete hm h).of_error hf,
      fun r r' hr hr' => hagree.rel hr hr'⟩

def twoTallies : Module :=
  let tally (name : Name) (superclass : Option Name) : ClassDecl :=
    { name, superclass, properties := [{ name := "count", type := ⟨"int"⟩ }]
      methods := [{ selector := "initialize", returnType := ⟨"void"⟩, isClassMethod := true }] }
  { classes := ⟨[("Total", tally "Total" (some "Tally")), ("Tally", tally "Tally" (some "Missing"))]⟩ }

theorem named_twoTallies : twoTallies.Named := by
  refine ⟨by decide, ?_, ?_, ?_⟩ <;>
    · intro e he
      simp only [twoTallies, mem_cons, not_mem_nil, or_false] at he
      rcases he with rfl | rfl <;> simp [Json.isText]

theorem twoTallies_reversed :
    ∃ r r' : Module, twoTallies.complete = .ok r ∧
      { twoTallies with classes := ⟨twoTallies.classes.entries.reverse⟩ }.complete = .ok r' ∧
      SameOutcome r r' := by
  have hacyclic := (Hierarchy.firstCycle?_eq_none_iff named_twoTallies).mp (by decide)
  obtain ⟨hiff, -, hsame⟩ := (complete_of_perm twoTallies twoTallies.classes.entries.reverse
    named_twoTallies (reverse_perm _).symm).2 hacyclic
  have hok : twoTallies.complete.isOk = true := by decide +kernel
  obtain ⟨r, hr⟩ : ∃ r, twoTallies.complete = .ok r := by
    cases hcomplete : twoTallies.complete with
    | error f =>
      rw [hcomplete] at hok
      cases hok
    | ok r => exact ⟨r, rfl⟩
  obtain ⟨r', hr'⟩ := hiff.mp ⟨r, hr⟩
  exact ⟨r, r', hr, hr', hsame r r' hr hr'⟩

end ObjcLowering
