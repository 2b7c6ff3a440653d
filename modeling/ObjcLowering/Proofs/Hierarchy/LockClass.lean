import ObjcLowering.Lowering.Demand
import ObjcLowering.Proofs.Hierarchy.Ancestry

/-! The class of lock objects below the root class. -/

namespace ObjcLowering.Hierarchy

open List

abbrev lockName : Name := "OZSpinLock"

def ReachesLock (m : Module) (root : Name) : Prop :=
  root.holds = true ∧ Relation.ReflTransGen (Up m) root lockName

def AddsLock (m m' : Module) : Prop :=
  lockName ∉ m.classes.names ∧ lockName ∈ m'.classes.names

structure WithLock (m : Module) (root : Name) (id : Int) (m' : Module) : Prop where
  notMem : lockName ∉ m.classes.names
  entries : m'.classes.entries = m.classes.entries ++ [(lockName, Lowering.spinLock root id)]

def nextId (m : Module) : Int :=
  (match m.classes.values.map (·.id) with
    | [] => -1
    | id :: rest => rest.foldl max id) + 1

variable {id : Int}

theorem withSpinLock_eq_ok (h : m.withSpinLock root = .ok m') :
    m' = m ∨ WithLock m root (nextId m) m' := by
  unfold Module.withSpinLock at h
  cases hcounts : Lowering.allocCounts m with
  | error f => simp [hcounts, bind, Except.bind] at h
  | ok counts =>
    simp only [hcounts, bind, Except.bind] at h
    split at h
    · cases h
      exact .inl rfl
    · next hadds =>
      cases h
      have hnot : lockName ∉ m.classes.names := by
        rw [← Table.has_iff_mem_names]
        intro hhas
        exact hadds (by simp [hhas])
      exact .inr ⟨hnot, Table.entries_set_of_notMem hnot⟩

namespace WithLock

variable (h : WithLock m root id m')
include h

theorem addsLock : AddsLock m m' :=
  ⟨h.notMem, by simp [Table.names, h.entries]⟩

theorem named (hm : m.Named) (hroot : root.isText = true) : m'.Named := by
  refine ⟨?_, fun e he => ?_, fun e he => ?_, fun e he => ?_⟩
  · have hnames : m'.classes.names = m.classes.names ++ [lockName] := by
      simp [Table.names, h.entries]
    rw [hnames, nodup_append]
    refine ⟨hm.nodup, nodup_singleton _, fun a ha b hb heq => h.notMem ?_⟩
    rwa [← mem_singleton.mp hb, ← heq]
  all_goals
    rw [h.entries, mem_append, mem_singleton] at he
    rcases he with he | rfl
  · exact hm.name_eq e he
  · rfl
  · exact hm.isText e he
  · rfl
  · exact hm.isText_superclass e he
  · intro up hup
    cases hup
    exact hroot

theorem class?_of_ne (ha : a ≠ lockName) : m'.class? a = m.class? a := by
  rw [Module.class?, Table.find?, h.entries, lookup_append]
  have hlast : lookup a [(lockName, Lowering.spinLock root id)] = none := by simp [ha]
  rw [hlast, Option.or_none]
  rfl

theorem class?_lock : m'.class? lockName = some (Lowering.spinLock root id) := by
  rw [Module.class?, Table.find?, h.entries, lookup_append]
  have hnone : m.classes.find? lockName = none := Table.find?_eq_none_iff.mpr h.notMem
  rw [show lookup lockName m.classes.entries = none from hnone]
  simp

theorem above_of_ne (ha : a ≠ lockName) : above m' a = above m a := by
  rw [above, h.class?_of_ne ha, above]

theorem above_lock : above m' lockName = stated? (some root) := by
  rw [above, h.class?_lock]
  rfl

theorem up_mono (hab : Up m a b) : Up m' a b := by
  have ha : a ≠ lockName := fun heq => h.notMem (heq ▸ mem_names_of_above hab)
  rwa [Up, h.above_of_ne ha]

theorem climbs_of_notMem (hclimbs : Climbs m a names) (hnot : lockName ∉ names) : Climbs m' a names := by
  induction hclimbs with
  | top hnone =>
    refine .top ?_
    rwa [h.above_of_ne fun heq => hnot (by simp [heq])]
  | up hsome _ ih =>
    refine .up ?_ (ih fun hmem => hnot (.tail _ hmem))
    rwa [h.above_of_ne fun heq => hnot (by simp [heq])]

theorem climbs_lock (hroot : ∃ names, Climbs m root names) (hnot : ¬ ReachesLock m root) :
    ∃ names, Climbs m' lockName names := by
  cases hholds : root.holds with
  | false => exact ⟨_, .top (h.above_lock.trans (by simp [stated?, hholds]))⟩
  | true =>
    obtain ⟨names, hnames⟩ := hroot
    refine ⟨_, .up (h.above_lock.trans (by simp [stated?, hholds])) (h.climbs_of_notMem hnames ?_)⟩
    exact fun hmem => hnot ⟨hholds, hnames.reflTransGen_of_mem hmem⟩

theorem exists_climbs (hlock : ∃ names, Climbs m' lockName names)
    (hclimbs : Climbs m a names) : ∃ names, Climbs m' a names := by
  induction hclimbs with
  | @top a hnone =>
    by_cases ha : a = lockName
    · rwa [ha]
    · exact ⟨_, .top ((h.above_of_ne ha).trans hnone)⟩
  | up hsome _ ih =>
    obtain ⟨names, hnames⟩ := ih
    exact ⟨_, .up (h.up_mono hsome) hnames⟩

theorem cycle_of_reachesLock (hreach : ReachesLock m root) :
    Relation.TransGen (Up m') lockName lockName := by
  have hroot : Up m' lockName root := h.above_lock.trans (by simp [stated?, hreach.1])
  exact .head' hroot (Relation.ReflTransGen.mono (fun _ _ hab => h.up_mono hab) _ _ hreach.2)

theorem forall_climbs_iff (hm : ∀ a, ∃ names, Climbs m a names) :
    (∀ a, ∃ names, Climbs m' a names) ↔ ¬ ReachesLock m root := by
  constructor
  · intro hclimbs hreach
    obtain ⟨names, hnames⟩ := hclimbs lockName
    exact hnames.not_cycle (h.cycle_of_reachesLock hreach)
  · intro hnot a
    obtain ⟨names, hnames⟩ := hm a
    exact h.exists_climbs (h.climbs_lock (hm root) hnot) hnames

end WithLock

end ObjcLowering.Hierarchy
