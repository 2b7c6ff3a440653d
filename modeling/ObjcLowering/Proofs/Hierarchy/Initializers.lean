import ObjcLowering.Proofs.Dispatch.Classification
import ObjcLowering.Proofs.Reordering.Completion

/-!
The classes with an initialiser are listed by their numbers: once each, and after their ancestors.
-/

namespace ObjcLowering

open List

variable {m m' : Module}

namespace Hierarchy

theorem rising_of_complete (hm : m.Named) (hdone : m.complete = .ok m') : m'.Numbered ∧ Rising m' := by
  have hcyclic := Module.not_cyclic_of_complete hm hdone
  have hsame := ((gives_complete hm hcyclic).of_ok hdone).1
  have hm' := hm.of_hierarchy_eq hsame
  obtain ⟨m₁, hids⟩ := exists_assignIds_eq_ok hm
  have hskeleton := skeleton_complete hm hcyclic hids hdone
  have hfrom := (idsFrom_of_assignIds hm hids).of_skeleton_eq hskeleton
  have hclimbs := forall_climbs_of_not_cyclic hm hcyclic
  obtain ⟨hordered, hperm⟩ := ordered_orderOf hm' (forall_climbs_of_hierarchy_eq hm hsame hclimbs)
  rw [(sameLinks_of_hierarchy_eq hsame).orderOf_eq hm' hm] at hordered hperm
  have hnumbered := numbered_of_assignIds hm hclimbs hids
  exact ⟨hnumbered.of_skeleton_eq hskeleton, hfrom.rising hm' hordered hperm⟩

theorem Rising.id_lt (h : Rising m) (hm : m.Named) (hc : m.class? a = some c) (hd : m.class? b = some d)
    (hab : Relation.TransGen (Extends m) a b) : d.id < c.id := by
  induction hab using Relation.TransGen.head_induction_on generalizing c with
  | single hstep =>
    obtain ⟨c', d', hc', hd', rfl⟩ := hstep
    obtain rfl : c = c' := Option.some.inj (hc.symm.trans hc')
    obtain ⟨up, -, hclass⟩ := parent?_eq_some.mp hd'
    rw [hm.name_of_class? hclass, hclass] at hd
    cases hd
    exact h c (Module.mem_values_of_class? hc) _ hd'
  | head hstep _ ih =>
    obtain ⟨c', d', hc', hd', rfl⟩ := hstep
    obtain rfl : c = c' := Option.some.inj (hc.symm.trans hc')
    obtain ⟨up, -, hclass⟩ := parent?_eq_some.mp hd'
    have hlt := ih (hm.class?_name (Module.mem_values_of_class? hclass))
    exact hlt.trans (h c (Module.mem_values_of_class? hc) _ hd')

theorem mem_classesById : c ∈ classesById m ↔ c ∈ m.classes.values := mem_mergeSort

theorem pairwise_classesById (m : Module) : (classesById m).Pairwise fun c d => c.id ≤ d.id := by
  refine (pairwise_mergeSort ?_ ?_ m.classes.values).imp fun h => of_decide_eq_true h
  · intro c d e hcd hde
    exact decide_eq_true ((of_decide_eq_true hcd).trans (of_decide_eq_true hde))
  · intro c d
    simpa using le_total c.id d.id

end Hierarchy

namespace Methods

open Hierarchy Properties

def HasInitializer (c : ClassDecl) : Prop :=
  ∃ x ∈ c.methods, x.isClassMethod = true ∧ x.selector = "initialize"

theorem isSome_initializer? : (initializer? c).isSome = true ↔ HasInitializer c := by
  simp [initializer?, HasInitializer]

theorem flatMap_initialized (classes : List ClassDecl) :
    classes.flatMap initialized =
      (classes.filter fun c => (initializer? c).isSome).map (·.name) := by
  induction classes with
  | nil => rfl
  | cons c classes ih => by_cases h : (initializer? c).isSome <;> simp [initialized, h, ih]

theorem initializers_of_complete (hm : m.Named) (hdone : m.complete = .ok m') :
    m'.initializers = m.initializers ++
      ((classesById m').filter fun c => (initializer? c).isSome).map (·.name) := by
  obtain ⟨m₁, m₂, m₃, m₄, m₅, h₁, h₂, h₃, h₄, h₅, rfl⟩ := Module.exists_passes hm hdone
  have hkept : m₅.initializers = m.initializers := by
    obtain ⟨done, -, h₁⟩ := bind_eq_ok.mp h₁
    obtain ⟨order, -, h₂⟩ := bind_eq_ok.mp h₂
    obtain ⟨-, -, h₄⟩ := bind_eq_ok.mp h₄
    obtain ⟨-, -, h₅⟩ := bind_eq_ok.mp h₅
    obtain ⟨errors, -, h₅⟩ := bind_eq_ok.mp h₅
    obtain rfl := pure_eq_ok.mp h₁
    obtain rfl := pure_eq_ok.mp h₂
    obtain rfl := classify_eq_ok h₃
    obtain rfl := pure_eq_ok.mp h₄
    obtain rfl := pure_eq_ok.mp h₅
    have hwarned : (warnMissingSupers m).initializers = m.initializers := by rw [warnMissingSupers_eq]
    exact hwarned
  have hclasses := classes_collectInitializers m₅
  have hbyId : classesById (collectInitializers m₅) = classesById m₅ := by
    rw [classesById, classesById, hclasses]
  rw [hbyId, collectInitializers, foldl_addInitializer, hkept, flatMap_initialized]

end Methods

namespace Output

def autoInit (name : Name) : String := s!"OZ_AUTO_INIT({name}_oz_auto_init, {name}_cls_initialize);"

def isAutoInit (line : String) : Bool := Text.begins "OZ_AUTO_INIT(" line

theorem isAutoInit_autoInit (name : Name) : isAutoInit (autoInit name) = true := by
  have hopens : ∀ a b c d, isAutoInit ("OZ_AUTO_INIT(" ++ a ++ b ++ c ++ d) = true := by
    intro a b c d
    simp only [isAutoInit, Text.begins, String.append_assoc, String.toList_append]
    exact isPrefixOf_iff_prefix.mpr (prefix_append _ _)
  exact hopens _ _ _ _

theorem isAutoInit_append {front : String} (rest : String)
    (h : ("OZ_AUTO_INIT(".toList.isPrefixOf front.toList ||
      front.toList.isPrefixOf "OZ_AUTO_INIT(".toList) = false) : isAutoInit (front ++ rest) = false := by
  rw [← Bool.not_eq_true, Bool.or_eq_true, isPrefixOf_iff_prefix, isPrefixOf_iff_prefix] at h
  rw [isAutoInit, Text.begins, String.toList_append, ← Bool.not_eq_true, isPrefixOf_iff_prefix]
  exact fun hprefix => h ( prefix_or_prefix_of_prefix hprefix (prefix_append _ _))

theorem filter_initSource (m : Module) :
    (initSource m).filter isAutoInit = m.initializers.map autoInit := by
  have hlines : ∀ names : List Name, (names.map autoInit).filter isAutoInit = names.map autoInit := by
    intro names
    rw [filter_eq_self]
    intro line hline
    obtain ⟨name, -, rfl⟩ := mem_map.mp hline
    exact isAutoInit_autoInit name
  unfold initSource
  split
  · next hempty => rw [isEmpty_iff.mp hempty]; rfl
  · rw [filter_append]
    exact congrArg _ (hlines m.initializers)

theorem isAutoInit_of_mem_tableSource {selector line : String} (h : line ∈ tableSource m selector) :
    isAutoInit line = false := by
  unfold tableSource at h
  simp only [mem_append, mem_cons, mem_map, not_mem_nil, or_false,
    String.append_assoc] at h
  rcases h with ((rfl | rfl) | ⟨e, -, rfl⟩) | rfl
  · decide +kernel
  · exact isAutoInit_append _ (by decide +kernel)
  · exact isAutoInit_append _ (by decide +kernel)
  · decide +kernel

theorem filter_dispatchSource {root text : String} (h : dispatchSource m root itemPool hasHeap = .ok text) :
    ∃ lines, text = banner ++ unlines lines ∧ lines.filter isAutoInit = m.initializers.map autoInit := by
  obtain ⟨methods, -, h⟩ := bind_eq_ok.mp h
  refine ⟨_, (pure_eq_ok.mp h).symm, ?_⟩
  rw [filter_append, filter_initSource, append_left_eq_self, filter_eq_nil_iff]
  have hheap : ∀ line ∈ (if hasHeap = true then heapSource else []), isAutoInit line = false := by
    split
    · decide +kernel
    · simp
  have hpool : ∀ line ∈ (if itemPool > 0 then ["", "OZ_MEM_BLOCKS_DEFINE(oz_item_pool, sizeof(struct "
      ++ (root ++ (" *), " ++ (toString itemPool ++ ", 4);")))] else []), isAutoInit line = false := by
    split
    · simp only [forall_mem_cons]
      exact ⟨by decide +kernel, isAutoInit_append _ (by decide +kernel), by simp⟩
    · simp
  simp only [forall_mem_append, forall_mem_map, forall_mem_flatMap, forall_mem_cons,
    Bool.not_eq_true, String.append_assoc, includeHeader]
  and_intros
  all_goals first
    | decide +kernel
    | exact isAutoInit_append _ (by decide +kernel)
    | exact fun _ _ => isAutoInit_append _ (by decide +kernel)
    | exact fun _ _ _ => isAutoInit_of_mem_tableSource
    | assumption

end Output

open Hierarchy Methods Output

theorem idxOf_lt_of_pairwise {α : Type} [BEq α] [LawfulBEq α] {R : α → α → Prop} {xs : List α} {x y : α}
    (h : xs.Pairwise fun x y => ¬ R x y) (hx : x ∈ xs) (hy : y ∈ xs) (hne : x ≠ y) (hxy : R x y) :
    xs.idxOf y < xs.idxOf x := by
  have hx' := idxOf_lt_length_iff.mpr hx
  have hy' := idxOf_lt_length_iff.mpr hy
  by_contra hnot
  obtain heq | hlt := (not_lt.mp hnot).eq_or_lt
  · exact hne ((idxOf_inj hx).mp heq)
  · have hrel := pairwise_iff_getElem.mp h _ _ hx' hy' hlt
    rw [getElem_idxOf, getElem_idxOf] at hrel
    exact hrel hxy

/-- The completed module lists the classes with an initialiser, each once and after its ancestors, and
the shared source registers their initialisers in this order and no others. -/
theorem initializers_ancestors_first (m m' : Module) (hm : m.Named) (hnew : m.initializers = [])
    (hdone : m.complete = .ok m') :
    (∀ a, a ∈ m'.initializers ↔ ∃ c, m'.class? a = some c ∧ HasInitializer c) ∧
    m'.initializers.Nodup ∧
    (∀ a ∈ m'.initializers, ∀ b ∈ m'.initializers, Relation.TransGen (Extends m') a b →
      m'.initializers.idxOf b < m'.initializers.idxOf a) ∧
    ∀ (n : Module) (root text : String) (itemPool : Int) (hasHeap : Bool),
      n.initializers = m'.initializers → dispatchSource n root itemPool hasHeap = .ok text →
      ∃ lines, text = banner ++ unlines lines ∧
        lines.filter isAutoInit = m'.initializers.map autoInit := by
  obtain ⟨⟨hm', hids⟩, hrising⟩ := rising_of_complete hm hdone
  have hlist := initializers_of_complete hm hdone
  rw [hnew, nil_append] at hlist
  have hmem : ∀ a, a ∈ m'.initializers ↔ ∃ c, m'.class? a = some c ∧ HasInitializer c := by
    intro a
    simp only [hlist, mem_map, mem_filter, mem_classesById, isSome_initializer?]
    constructor
    · rintro ⟨c, ⟨hc, hinit⟩, rfl⟩
      exact ⟨c, hm'.class?_name hc, hinit⟩
    · rintro ⟨c, hc, hinit⟩
      exact ⟨c, ⟨Module.mem_values_of_class? hc, hinit⟩, hm'.name_of_class? hc⟩
  have hsorted : m'.initializers.Pairwise fun a b => ¬ Relation.TransGen (Extends m') a b := by
    rw [hlist, pairwise_map]
    refine ((pairwise_classesById m').sublist filter_sublist).imp_of_mem ?_
    intro c d hc hd hle hbelow
    have hclass : ∀ {c}, c ∈ (classesById m').filter (fun c => (initializer? c).isSome) →
        m'.class? c.name = some c := fun h => hm'.class?_name (mem_classesById.mp (mem_filter.mp h).1)
    have hlt := hrising.id_lt hm' (hclass hc) (hclass hd) hbelow
    omega
  refine ⟨hmem, ?_, fun a ha b hb hab => ?_, fun n root text itemPool hasHeap hsame htext => ?_⟩
  · have hvalues : (classesById m').Nodup :=
      (mergeSort_perm _ _).nodup_iff.mpr (Nodup.of_map _ hids)
    rw [hlist]
    refine (hvalues.filter _).map_on fun c hc d hd hname => ?_
    exact hm'.eq_of_name_eq (mem_classesById.mp (mem_filter.mp hc).1)
      (mem_classesById.mp (mem_filter.mp hd).1) hname
  · refine idxOf_lt_of_pairwise hsorted ha hb ?_ hab
    rintro rfl
    obtain ⟨c, hc, -⟩ := (hmem a).mp ha
    exact absurd (hrising.id_lt hm' hc hc hab) (lt_irrefl _)
  · rw [← hsame]
    exact filter_dispatchSource htext

def talliesDone : Module := twoTallies.completeClasses.toOption.getD {}

theorem tally_before_total : ∃ m', twoTallies.complete = .ok m' ∧
    m'.initializers.idxOf (.text "Tally") < m'.initializers.idxOf (.text "Total") := by
  have hdone : twoTallies.complete = .ok (collectInitializers talliesDone) := complete_of_completeClasses rfl
  have hm := (rising_of_complete named_twoTallies hdone).1.1
  have hclasses := classes_collectInitializers talliesDone
  obtain ⟨hmem, -, hfirst, -⟩ :=
    initializers_ancestors_first twoTallies _ named_twoTallies rfl hdone
  have hlisted : ∀ a ∈ [Json.text "Tally", .text "Total"],
      a ∈ (collectInitializers talliesDone).initializers := by
    intro a ha
    have hall : ∀ a ∈ [Json.text "Tally", .text "Total"],
        ((talliesDone.class? a).bind initializer?).isSome = true := by decide +kernel
    obtain ⟨x, hx⟩ := Option.isSome_iff_exists.mp (hall a ha)
    obtain ⟨c, hc, hx⟩ := Option.bind_eq_some_iff.mp hx
    refine (hmem a).mpr ⟨c, ?_, isSome_initializer?.mp (by rw [hx]; rfl)⟩
    rw [Module.class?, hclasses]
    exact hc
  refine ⟨_, hdone, hfirst _ (hlisted _ (by simp)) _ (hlisted _ (by simp)) (.single ?_)⟩
  rw [extends_iff hm, above, Module.class?, hclasses]
  exact ⟨rfl, by decide +kernel⟩

end ObjcLowering
