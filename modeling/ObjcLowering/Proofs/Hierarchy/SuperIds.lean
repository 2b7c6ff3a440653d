import ObjcLowering.Output.Dispatch
import ObjcLowering.Proofs.Hierarchy.Cycles
import ObjcLowering.Proofs.Hierarchy.Numbering

/-! The table of superclasses in generated code. -/

namespace ObjcLowering.Hierarchy

open Output Module

abbrev countName : Name := "COUNT"

inductive Follows (m : Module) : ClassDecl → List ClassDecl → Prop
  | last : superId m c = "OZ_CLASS_COUNT" → Follows m c []
  | next {c d : ClassDecl} {rest : List ClassDecl} : superId m c ≠ "OZ_CLASS_COUNT" →
      d ∈ m.classes.values → superId m c = "OZ_CLASS_" ++ d.name.plain → Follows m d rest →
      Follows m c (d :: rest)

def FollowsAncestors (m : Module) : Prop :=
  ∀ c ∈ m.classes.values, ∃ ancestors, Ascends m c (c :: ancestors) ∧ Follows m c ancestors

def NoCountAbove (m : Module) : Prop :=
  ∀ c ∈ m.classes.values, ∀ d, m.parent? c = some d → d.name ≠ countName

theorem superId_of_none (h : m.parent? c = none) : superId m c = "OZ_CLASS_COUNT" := by
  have hfilter : (stated? c.superclass).filter m.classes.has = none := by
    rw [Option.filter_eq_none_iff]
    intro up hup hhas
    have hclass : m.class? up = none := by simpa [parent?, hup] using h
    rw [Table.has, show m.classes.find? up = none from hclass] at hhas
    cases hhas
  rw [superId, hfilter]

theorem superId_of_some (hm : m.Named) (h : m.parent? c = some d) :
    superId m c = "OZ_CLASS_" ++ d.name.plain := by
  obtain ⟨up, hup, hclass⟩ := parent?_eq_some.mp h
  have hhas : m.classes.has up = true := by
    rw [Table.has, show m.classes.find? up = some d from hclass]
    rfl
  rw [superId, hup, Option.filter_some_pos hhas, hm.name_of_class? hclass]
  rfl

theorem superId_eq_count_iff (hm : m.Named) (h : m.parent? c = some d) :
    superId m c = "OZ_CLASS_COUNT" ↔ d.name = countName := by
  obtain ⟨up, -, hclass⟩ := parent?_eq_some.mp h
  have htext := hm.isText _ (Table.mem_of_find? hclass)
  rw [← hm.name_of_class? hclass] at htext
  rw [superId_of_some hm h, show "OZ_CLASS_COUNT" = "OZ_CLASS_" ++ "COUNT" from rfl]
  cases hname : d.name with
  | text s =>
    rw [Json.plain, String.append_right_inj]
    exact ⟨congrArg Json.text, Json.text.inj⟩
  | _ =>
    rw [hname] at htext
    cases htext

theorem Ascends.climbs (h : Ascends m c ancestors) (hm : m.Named) (hc : c ∈ m.classes.values) :
    ∃ names, Climbs m c.name names := by
  induction h with
  | @top c hnone =>
    have habove : above m c.name = stated? c.superclass := by simp [above, hm.class?_name hc]
    cases hup : stated? c.superclass with
    | none => exact ⟨_, .top (habove.trans hup)⟩
    | some up =>
      have hclass : m.class? up = none := by simpa [parent?, hup] using hnone
      exact ⟨_, .up (habove.trans hup) (.top (by simp [above, hclass, stated?]))⟩
  | @up c d rest hsome _ ih =>
    obtain ⟨up, hup, hclass⟩ := parent?_eq_some.mp hsome
    obtain ⟨names, hnames⟩ := ih (mem_values_of_class? hclass)
    rw [hm.name_of_class? hclass] at hnames
    exact ⟨_, .up (by simp [above, hm.class?_name hc, hup]) hnames⟩

theorem Ascends.follows (h : Ascends m c ancestors) (hm : m.Named) (hcount : NoCountAbove m)
    (hc : c ∈ m.classes.values) : ∃ rest, ancestors = c :: rest ∧ Follows m c rest := by
  induction h with
  | top hnone => exact ⟨[], rfl, .last (superId_of_none hnone)⟩
  | @up c d rest hsome hrest ih =>
    obtain ⟨up, -, hclass⟩ := parent?_eq_some.mp hsome
    have hd := mem_values_of_class? hclass
    obtain ⟨more, rfl, hfollows⟩ := ih hd
    have hne := mt (superId_eq_count_iff hm hsome).mp (hcount c hc d hsome)
    exact ⟨d :: more, rfl, .next hne hd (superId_of_some hm hsome) hfollows⟩

theorem followsAncestors_iff (hm : m.Named) :
    FollowsAncestors m ↔ (∀ a, ∃ names, Climbs m a names) ∧ NoCountAbove m := by
  constructor
  · intro h
    refine ⟨fun a => ?_, fun c hc d hd hname => ?_⟩
    · cases hclass : m.class? a with
      | none => exact ⟨_, .top (by simp [above, hclass, stated?])⟩
      | some c =>
        obtain ⟨ancestors, hascends, -⟩ := h c (mem_values_of_class? hclass)
        have hclimbs := hascends.climbs hm (mem_values_of_class? hclass)
        rwa [hm.name_of_class? hclass] at hclimbs
    · obtain ⟨ancestors, hascends, hfollows⟩ := h c hc
      have hend := (superId_eq_count_iff hm hd).mpr hname
      -- the end mark is met at once, but there is an ancestor
      cases hfollows with
      | next hne => exact hne hend
      | last =>
        cases hascends with
        | top hnone => rw [hd] at hnone; cases hnone
        | up _ hrest => cases hrest
  · rintro ⟨hclimbs, hcount⟩ c hc
    have hascends := ascends_chain hm hc (hclimbs c.name).choose_spec
    obtain ⟨rest, hrest, hfollows⟩ := hascends.follows hm hcount hc
    rw [hrest] at hascends
    exact ⟨rest, hascends, hfollows⟩

theorem exists_append_of_mem_unlines (h : x ∈ xs) :
    ∃ before after, banner ++ unlines xs = before ++ (x ++ "\n") ++ after := by
  obtain ⟨front, back, rfl⟩ := List.append_of_mem h
  refine ⟨banner ++ unlines front, unlines back, ?_⟩
  simp [unlines, String.append_assoc]

theorem dispatchHeader_count (h : dispatchHeader m root itemPool = .ok text) : ∃ before after, text = before
      ++ ("\tOZ_CLASS_COUNT = " ++ toString m.classes.entries.length ++ "\n") ++ after := by
  rw [dispatchHeader] at h
  obtain ⟨methods, -, htext⟩ := bind_eq_ok.mp h
  rw [← pure_eq_ok.mp htext]
  apply exists_append_of_mem_unlines
  simp

section

theorem dense_withSpinLock (hdense : Dense m) (h : m.withSpinLock root = .ok m') : Dense m' := by
  rcases withSpinLock_eq_ok h with rfl | hlock
  · exact hdense
  · exact hlock.dense hdense

theorem followsAncestors_withSpinLock (hm : m.Named) (hclimbs : ∀ a, ∃ names, Climbs m a names)
    (hroot : root.isText = true) (h : m.withSpinLock root = .ok m') :
    FollowsAncestors m' ↔ (AddsLock m m' → ¬ ReachesLock m root) ∧ NoCountAbove m' := by
  rcases withSpinLock_eq_ok h with rfl | hlock
  · have hnone : ¬ AddsLock m' m' := fun hadds => hadds.1 hadds.2
    rw [followsAncestors_iff hm]
    exact and_congr_left fun _ => iff_of_true hclimbs fun hadds => absurd hadds hnone
  · rw [followsAncestors_iff (hlock.named hm hroot), hlock.forall_climbs_iff hclimbs]
    exact and_congr_left fun _ => ⟨fun hnot _ => hnot, fun hnot => hnot hlock.addsLock⟩

end

theorem not_cyclic_of_validate (hm : m.Named) (h : validate m = .ok v) : ¬ Cyclic m := by
  intro hcyclic
  obtain ⟨start, again, herror, -⟩ := validate_eq_error hm hcyclic
  rw [h] at herror
  cases herror

theorem skeleton_complete (hm : m.Named) (hcyclic : ¬ Cyclic m)
    (hids : assignIds m = .ok m') (hdone : m.complete = .ok done) :
    done.skeleton = m'.skeleton := by
  obtain ⟨-, m₀, m₁, hsame, hids₁, hskeleton⟩ := (gives_complete hm hcyclic).of_ok hdone
  have hm₀ := hm.of_hierarchy_eq hsame
  have hkeep := (gives_assignIds m).of_ok hids
  have hkeep₁ := (gives_assignIds m₀).of_ok hids₁
  have horder : orderOf m₀ = orderOf m := (sameLinks_of_hierarchy_eq hsame).orderOf_eq hm₀ hm
  rw [hskeleton, (idsFrom_of_assignIds hm₀ hids₁).skeleton_eq (hm₀.of_hierarchy_eq hkeep₁),
    (idsFrom_of_assignIds hm hids).skeleton_eq (hm.of_hierarchy_eq hkeep), hkeep₁, hsame, hkeep, horder]

/-- Where validation lets a module pass, the classes are numbered from zero without gaps, superclasses
first, and independently of their order. With the class of lock objects the numbers stay dense, their
count is the end mark, and the table of superclasses leads to all ancestors exactly if no superclass
shares its name with the end mark and the class of lock objects closes no cycle. -/
theorem classIds_number_hierarchy (m v : Module) (hm : m.Named) (hvalid : validate m = .ok v) :
    ∃ m', assignIds m = .ok m' ∧ m'.hierarchy = m.hierarchy ∧ Dense m' ∧ Rising m' ∧
      (∀ n n' : Module, n.Named → SameLinks m n → assignIds n = .ok n' →
        ∀ c ∈ m'.classes.values, ∀ d ∈ n'.classes.values, c.name = d.name → c.id = d.id) ∧
      (∀ done, m.complete = .ok done → done.skeleton = m'.skeleton) ∧
      ∀ done locked : Module, ∀ root : Name, done.skeleton = m'.skeleton → root.isText = true →
        done.withSpinLock root = .ok locked →
        Dense locked ∧
        (∀ name pool text, dispatchHeader locked name pool = .ok text → ∃ before after,
          text = before ++ ("\tOZ_CLASS_COUNT = " ++ toString locked.classes.entries.length ++ "\n")
            ++ after) ∧
        (FollowsAncestors locked ↔
          (AddsLock done locked → ¬ ReachesLock done root) ∧ NoCountAbove locked) := by
  have hcyclic := not_cyclic_of_validate hm hvalid
  have hclimbs := forall_climbs_of_not_cyclic hm hcyclic
  obtain ⟨m', hids⟩ := exists_assignIds_eq_ok hm
  have hkeep := (gives_assignIds m).of_ok hids
  have hm' := hm.of_hierarchy_eq hkeep
  have hfrom := idsFrom_of_assignIds hm hids
  have hclimbs' := forall_climbs_of_hierarchy_eq hm hkeep hclimbs
  have horder : orderOf m' = orderOf m := (sameLinks_of_hierarchy_eq hkeep).orderOf_eq hm' hm
  obtain ⟨hordered, hperm⟩ := ordered_orderOf hm' hclimbs'
  rw [horder] at hordered hperm
  refine ⟨m', hids, hkeep, hfrom.dense hm' hperm, hfrom.rising hm' hordered hperm, ?_,
    fun done hdone => skeleton_complete hm hcyclic hids hdone, ?_⟩
  · intro n n' hn hlinks hids' c hc d hd hname
    rw [hfrom c hc, idsFrom_of_assignIds hn hids' d hd, hname, hlinks.orderOf_eq hm hn]
  · intro done locked root hsame hroot hlocked
    have hhierarchy := hierarchy_eq_of_skeleton_eq hsame
    have hdone := hm'.of_hierarchy_eq hhierarchy
    have hnames := names_eq_of_hierarchy_eq hhierarchy
    refine ⟨dense_withSpinLock ((hfrom.of_skeleton_eq hsame).dense hdone (hnames ▸ hperm)) hlocked,
      fun _ _ _ htext => dispatchHeader_count htext,
      followsAncestors_withSpinLock hdone ?_ hroot hlocked⟩
    exact forall_climbs_of_hierarchy_eq hm' hhierarchy hclimbs'

theorem leavesFirst_numbered :
    ∃ m', assignIds (ofLinks [("Leaf", some "Branch"), ("Branch", some "Root"), ("Root", none)])
      = .ok m' ∧ Dense m' ∧ Rising m' := by
  have hm := named_ofLinks
    [("Leaf", some "Branch"), ("Branch", some "Root"), ("Root", none)] (by decide)
  have hvalid := validate_eq_ok hm ((firstCycle?_eq_none_iff hm).mp (by decide))
  obtain ⟨m', hids, -, hdense, hrising, -⟩ := classIds_number_hierarchy _ _ hm hvalid
  exact ⟨m', hids, hdense, hrising⟩

def lockAbove : Module :=
  { classes := ⟨[("A", { name := "A", superclass := some lockName, methods := [
      { selector := "run", returnType := ⟨"void"⟩,
        body := some (.bare "ObjCAtSynchronizedStmt" []) }] })]⟩ }

theorem named_lockAbove : lockAbove.Named := by
  refine ⟨by decide, ?_, ?_, ?_⟩ <;>
    · intro e he
      cases List.mem_singleton.mp he
      simp [Json.isText]

/-- From a class below one that is called `COUNT` the table leads nowhere. Below a root that states the
class of lock objects as its superclass it leads around for ever. -/
theorem table_misses_ancestors :
    (∃ m', assignIds (ofLinks [("COUNT", none), ("Sub", some "COUNT")]) = .ok m' ∧
      m'.withSpinLock "OZObject" = .ok m' ∧
      ∃ c ∈ m'.classes.values, ∃ d, m'.parent? c = some d ∧ Follows m' c []) ∧
    ∃ m' locked, assignIds lockAbove = .ok m' ∧ m'.withSpinLock "A" = .ok locked ∧
      ¬ FollowsAncestors locked := by
  have hm := named_ofLinks [("COUNT", none), ("Sub", some "COUNT")] (by decide)
  constructor
  · rw [assignIds, classOrder_eq_ok hm]
    refine ⟨_, rfl, rfl, _, .tail _ (.head _), _, rfl, .last rfl⟩
  · have hacyclic := (firstCycle?_eq_none_iff named_lockAbove).mp (by decide)
    obtain ⟨m', hids⟩ := exists_assignIds_eq_ok named_lockAbove
    have hkeep := (gives_assignIds lockAbove).of_ok hids
    have hm' := named_lockAbove.of_hierarchy_eq hkeep
    rw [assignIds, classOrder_eq_ok named_lockAbove] at hids ⊢
    cases hids
    refine ⟨_, _, rfl, rfl, ?_⟩
    have hclimbs := forall_climbs_of_hierarchy_eq named_lockAbove hkeep
      (forall_climbs_of_not_cyclic named_lockAbove hacyclic)
    rw [followsAncestors_withSpinLock hm' hclimbs (show Json.isText "A" = true from rfl) rfl]
    intro h
    exact h.1 ⟨by decide, by decide⟩ ⟨rfl, .single rfl⟩

end ObjcLowering.Hierarchy
