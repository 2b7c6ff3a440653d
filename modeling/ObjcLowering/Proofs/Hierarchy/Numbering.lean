import Mathlib.Data.List.Sort
import Mathlib.Data.String.Basic
import ObjcLowering.Proofs.Hierarchy.Completion
import ObjcLowering.Proofs.Hierarchy.LockClass
import ObjcLowering.Proofs.Hierarchy.Walks

/-! The numbers of the classes. -/

namespace ObjcLowering

open List

namespace Json

theorem sortBy_map_text (ss : List String) :
    sortBy id (ss.map text) = (ss.mergeSort fun a b => !decide (b < a)).map text := by
  rw [sortBy, map_mergeSort]
  intro a _ b _
  simp [precedes]

theorem mergeSort_eq_of_perm {ss ts : List String} (h : ss.Perm ts) :
    (ss.mergeSort fun a b => !decide (b < a)) = ts.mergeSort fun a b => !decide (b < a) := by
  have hsorted : ∀ ss : List String,
      (ss.mergeSort fun a b => !decide (b < a)).Pairwise (· ≤ ·) := by
    intro ss
    refine Pairwise.imp (fun h => not_lt.mp (by simpa only [Bool.not_eq_true',
      decide_eq_false_iff_not] using h)) (pairwise_mergeSort ?_ ?_ ss)
    · intro a b c
      simp only [Bool.not_eq_true', decide_eq_false_iff_not, not_lt]
      exact le_trans
    · intro a b
      simp only [Bool.or_eq_true, Bool.not_eq_true', decide_eq_false_iff_not, not_lt]
      exact le_total a b
  refine Perm.eq_of_pairwise (fun a b _ _ hab hba => le_antisymm hab hba) (hsorted ss)
    (hsorted ts) ?_
  exact (mergeSort_perm ss _).trans (h.trans (mergeSort_perm ts _).symm)

theorem exists_map_text (h : ∀ x ∈ xs, x.isText = true) : ∃ ss : List String, xs = ss.map text := by
  induction xs with
  | nil => exact ⟨[], rfl⟩
  | cons x xs ih =>
    obtain ⟨ss, hss⟩ := ih fun y hy => h y (.tail _ hy)
    have hx := h x (.head _)
    cases x <;> first | exact ⟨_ :: ss, by rw [hss]; rfl⟩ | cases hx

theorem sorted_eq_ok (h : ∀ x ∈ xs, x.isText = true) : sorted xs = .ok (sortBy id xs) := by
  have hall : xs.all isText = true := all_eq_true.mpr h
  simp [sorted, areComparable, hall]

theorem sortBy_eq_of_perm {xs ys : List Json} (hxs : ∀ x ∈ xs, x.isText = true)
    (h : xs.Perm ys) : sortBy id xs = sortBy id ys := by
  obtain ⟨ss, rfl⟩ := exists_map_text hxs
  obtain ⟨ts, rfl⟩ := exists_map_text fun y hy => hxs y (h.mem_iff.mpr hy)
  have hperm : ss.Perm ts := (map_perm_map_iff fun _ _ => Json.text.inj).mp h
  rw [sortBy_map_text, sortBy_map_text, mergeSort_eq_of_perm hperm]

end Json

namespace Hierarchy

variable {m m' : Module} {order order' : List Name}

/-- The classes in an order in which each one comes after its superclass, without repetition. -/
inductive Ordered (m : Module) : List Name → Prop
  | nil : Ordered m []
  | snoc {order : List Name} {a : Name} : Ordered m order → a ∈ m.classes.names → a ∉ order →
      (∀ b, Extends m a b → b ∈ order) → Ordered m (order ++ [a])

theorem Ordered.nodup (h : Ordered m order) : order.Nodup := by
  induction h with
  | nil => exact nodup_nil
  | snoc _ _ hnew _ ih =>
    rw [nodup_append]
    refine ⟨ih, nodup_singleton _, fun x hx y hy heq => hnew ?_⟩
    rwa [← mem_singleton.mp hy, ← heq]

theorem Ordered.subset (h : Ordered m order) : order ⊆ m.classes.names := by
  induction h with
  | nil => exact nil_subset _
  | snoc _ ha _ _ ih => exact append_subset.mpr ⟨ih, by simpa using ha⟩

theorem Ordered.idxOf_lt (h : Ordered m order) (ha : a ∈ order) (hab : Extends m a b) :
    order.idxOf b < order.idxOf a := by
  induction h with
  | nil => cases ha
  | @snoc order x _ _ hnew hup ih =>
    by_cases hmem : a ∈ order
    · have hlt := ih hmem
      have hb : b ∈ order := idxOf_lt_length_iff.mp (hlt.trans (idxOf_lt_length_iff.mpr hmem))
      rwa [idxOf_append_of_mem hb, idxOf_append_of_mem hmem]
    · have hx : a = x := by simpa [hmem] using ha
      subst hx
      have hb := hup b hab
      rw [idxOf_append_of_mem hb, idxOf_append_of_notMem hmem]
      exact Nat.lt_add_right _ (idxOf_lt_length_iff.mpr hb)

/-- Numbering a class numbers it and ancestors of it, in order. The superclass cannot have numbered
the class itself, which would be an ancestor of its own. -/
theorem Numbers.ordered (hm : m.Named) (hclimbs : ∀ a, ∃ names, Climbs m a names)
    (h : Numbers m order a order') (hordered : Ordered m order) (ha : a ∈ m.classes.names) :
    Ordered m order' ∧ a ∈ order' ∧ order ⊆ order' ∧
      ∀ x ∈ order', x ∈ order ∨ Relation.ReflTransGen (Up m) a x := by
  induction h with
  | known hmem => exact ⟨hordered, hmem, Subset.refl _, fun x hx => .inl hx⟩
  | @top a hnew hnone =>
    refine ⟨.snoc hordered ha hnew fun b hb => ?_, by simp, subset_append_left _ _,
      fun x hx => ?_⟩
    · obtain ⟨c, d, hc, hd, -⟩ := hb
      simp [hc, hd] at hnone
    · rcases mem_append.mp hx with hx | hx
      · exact .inl hx
      · exact .inr (by rw [mem_singleton.mp hx])
  | @after order' a up hnew hsome _ ih =>
    obtain ⟨c, hc, hup⟩ := Option.bind_eq_some_iff.mp hsome
    have hab : Extends m a up.name := ⟨c, up, hc, hup, rfl⟩
    obtain ⟨habove, hmem⟩ := (extends_iff hm).mp hab
    obtain ⟨hordered', hup', hsubset, hreach⟩ := ih hmem
    have hnew' : a ∉ order' := by
      intro hcontra
      rcases hreach a hcontra with hold | hback
      · exact hnew hold
      · obtain ⟨names, hnames⟩ := hclimbs a
        exact hnames.not_cycle (.head' habove hback)
    refine ⟨.snoc hordered' ha hnew' fun b hb => ?_, by simp,
      subset_append_of_subset_left _ hsubset, fun x hx => ?_⟩
    · have hbup : b = up.name := by
        have hsame := ((extends_iff hm).mp hb).1
        rw [habove] at hsame
        exact (Option.some.inj hsame).symm
      rwa [hbup]
    · rcases mem_append.mp hx with hx | hx
      · exact (hreach x hx).imp_right fun hx => .head habove hx
      · exact .inr (by rw [mem_singleton.mp hx])

theorem ordered_foldl (hm : m.Named) (hclimbs : ∀ a, ∃ names, Climbs m a names)
    (hwalks : WalksEnd m) (hnames : names ⊆ m.classes.names) (hordered : Ordered m order) :
    Ordered m (names.foldl (number m (m.classes.entries.length + 1)) order) ∧
      order ⊆ names.foldl (number m (m.classes.entries.length + 1)) order ∧
      names ⊆ names.foldl (number m (m.classes.entries.length + 1)) order := by
  induction names generalizing order with
  | nil => exact ⟨hordered, Subset.refl _, nil_subset _⟩
  | cons a names ih =>
    obtain ⟨ha, hrest⟩ := cons_subset.mp hnames
    obtain ⟨hordered', hmem, hsubset, -⟩ := (hwalks.numbers order a).ordered hm hclimbs hordered ha
    obtain ⟨hfinal, hkeeps, hall⟩ := ih hrest hordered'
    exact ⟨hfinal, Subset.trans hsubset hkeeps, cons_subset.mpr ⟨hkeeps hmem, hall⟩⟩

theorem mem_names_isText (hm : m.Named) : ∀ x ∈ m.classes.names, x.isText = true := by
  intro x hx
  obtain ⟨c, hc⟩ := Table.mem_names.mp hx
  exact hm.isText _ hc

def orderOf (m : Module) : List Name :=
  (Json.sortBy id m.classes.names).foldl (number m (m.classes.entries.length + 1)) []

theorem classOrder_eq_ok (hm : m.Named) : classOrder m = .ok (orderOf m) := by
  rw [classOrder, Json.sorted_eq_ok (mem_names_isText hm)]
  rfl

theorem ordered_orderOf (hm : m.Named) (hclimbs : ∀ a, ∃ names, Climbs m a names) :
    Ordered m (orderOf m) ∧ (orderOf m).Perm m.classes.names := by
  have hsorted : (Json.sortBy id m.classes.names).Perm m.classes.names := mergeSort_perm _ _
  obtain ⟨hordered, -, hall⟩ := ordered_foldl hm hclimbs (walksEnd_of_climbs hm hclimbs)
    hsorted.subset .nil
  refine ⟨hordered, (perm_ext_iff_of_nodup hordered.nodup hm.nodup).mpr fun x => ?_⟩
  exact ⟨fun hx => hordered.subset hx, fun hx => hall (hsorted.mem_iff.mpr hx)⟩

theorem mem_names_iff_link (hm : m.Named) :
    a ∈ m.classes.names ↔ ∃ up, ∃ c ∈ m.classes.values, c.name = a ∧ c.superclass = up := by
  constructor
  · intro ha
    obtain ⟨c, hc⟩ := Table.mem_names.mp ha
    exact ⟨c.superclass, c, Table.mem_values.mpr ⟨a, hc⟩, hm.name_eq _ hc, rfl⟩
  · rintro ⟨up, c, hc, rfl, -⟩
    exact Table.mem_names.mpr ⟨c, Table.mem_of_find? (hm.class?_name hc)⟩

namespace SameLinks

variable (h : SameLinks m m') (hm : m.Named) (hm' : m'.Named)
include h hm hm'

theorem names_perm : m.classes.names.Perm m'.classes.names := by
  refine (perm_ext_iff_of_nodup hm.nodup hm'.nodup).mpr fun a => ?_
  rw [mem_names_iff_link hm, mem_names_iff_link hm']
  exact exists_congr fun up => h a up

theorem extends_iff_extends : Extends m a b ↔ Extends m' a b := by
  rw [extends_iff hm, extends_iff hm', h.above_eq hm hm', (h.names_perm hm hm').mem_iff]

theorem number_eq (fuel : Nat) : number m fuel order a = number m' fuel order a := by
  induction fuel generalizing a with
  | zero => rfl
  | succ fuel ih =>
    have hupper : ((m.class? a).bind m.parent?).map (·.name)
        = ((m'.class? a).bind m'.parent?).map (·.name) := by
      apply Option.ext
      intro b
      have hextends := h.extends_iff_extends (a := a) (b := b) hm hm'
      simpa [Extends, Option.map_eq_some_iff, Option.bind_eq_some_iff, and_assoc, exists_and_left]
        using hextends
    rw [number, number]
    cases hparent : (m.class? a).bind m.parent? with
    | none =>
      have hparent' : (m'.class? a).bind m'.parent? = none := by
        rwa [hparent, Option.map_none, eq_comm, Option.map_eq_none_iff] at hupper
      rw [hparent']
    | some d =>
      rw [hparent, Option.map_some, eq_comm, Option.map_eq_some_iff] at hupper
      obtain ⟨d', hparent', hname⟩ := hupper
      rw [hparent']
      simp only [ih, hname]

theorem orderOf_eq : orderOf m = orderOf m' := by
  have hperm := h.names_perm hm hm'
  have hlength : m.classes.entries.length = m'.classes.entries.length := by
    rw [← Table.length_names, hperm.length_eq, Table.length_names]
  have hnumber : number m (m.classes.entries.length + 1) = number m' (m'.classes.entries.length + 1) := by
    funext order a
    rw [h.number_eq hm hm', hlength]
  rw [orderOf, orderOf, Json.sortBy_eq_of_perm (mem_names_isText hm) hperm, hnumber]

end SameLinks

def IdsFrom (m : Module) (order : List Name) : Prop :=
  ∀ c ∈ m.classes.values, c.id = order.idxOf c.name

def Dense (m : Module) : Prop :=
  (m.classes.values.map (·.id)).Perm
    ((range m.classes.entries.length).map fun (n : Nat) => (n : Int))

def Rising (m : Module) : Prop :=
  ∀ c ∈ m.classes.values, ∀ d, m.parent? c = some d → d.id < c.id

theorem exists_assignIds_eq_ok (hm : m.Named) : ∃ m', assignIds m = .ok m' := by
  rw [assignIds, classOrder_eq_ok hm]
  exact ⟨_, rfl⟩

theorem idsFrom_of_assignIds (hm : m.Named) (h : assignIds m = .ok m') : IdsFrom m' (orderOf m) := by
  rw [assignIds, classOrder_eq_ok hm] at h
  cases h
  intro c hc
  obtain ⟨a, hmem⟩ := Table.mem_values.mp hc
  obtain ⟨e, he, heq⟩ := mem_map.mp hmem
  cases heq
  simp [hm.name_eq e he]

theorem IdsFrom.of_skeleton_eq (h : IdsFrom m order) (hsame : m'.skeleton = m.skeleton) :
    IdsFrom m' order := by
  intro c hc
  obtain ⟨a, hmem⟩ := Table.mem_values.mp hc
  have hentry : (a, c.name, c.superclass, c.id) ∈ m'.skeleton :=
    mem_map.mpr ⟨(a, c), hmem, rfl⟩
  rw [hsame] at hentry
  obtain ⟨e, he, heq⟩ := mem_map.mp hentry
  simp only [Prod.mk.injEq] at heq
  rw [← heq.2.2.2, ← heq.2.1]
  exact h e.2 (Table.mem_values.mpr ⟨e.1, he⟩)

theorem IdsFrom.skeleton_eq (hm : m.Named) (h : IdsFrom m order) :
    m.skeleton = m.hierarchy.map fun e => (e.1, e.2.1, e.2.2, (order.idxOf e.1 : Int)) := by
  rw [Module.skeleton, Module.hierarchy, map_map]
  refine map_congr_left fun e he => ?_
  have hid := h e.2 (Table.mem_values.mpr ⟨e.1, he⟩)
  rw [hm.name_eq e he] at hid
  simp [hid]

theorem map_idxOf_self (h : order.Nodup) : order.map order.idxOf = range order.length := by
  refine ext_getElem (by simp) fun n h₁ h₂ => ?_
  simp [h.idxOf_getElem]

theorem IdsFrom.dense (hm : m.Named) (h : IdsFrom m order) (hperm : order.Perm m.classes.names) :
    Dense m := by
  have hnames : m.classes.values.map (·.name) = m.classes.names := by
    rw [Table.values, Table.names, map_map]
    exact map_congr_left fun e he => hm.name_eq e he
  have hids : m.classes.values.map (·.id)
      = (m.classes.names.map order.idxOf).map fun (n : Nat) => (n : Int) := by
    rw [← hnames, map_map, map_map]
    exact map_congr_left h
  have hnodup : order.Nodup := hperm.nodup_iff.mpr hm.nodup
  have hlength : m.classes.entries.length = order.length := by
    rw [hperm.length_eq, Table.length_names]
  rw [Dense, hids, hlength, ← map_idxOf_self hnodup]
  exact (hperm.symm.map _).map _

theorem IdsFrom.rising (hm : m.Named) (h : IdsFrom m order) (hordered : Ordered m order)
    (hperm : order.Perm m.classes.names) : Rising m := by
  intro c hc d hd
  obtain ⟨up, -, hclass⟩ := parent?_eq_some.mp hd
  have hmem : c.name ∈ order :=
    hperm.mem_iff.mpr (Table.mem_names.mpr ⟨c, Table.mem_of_find? (hm.class?_name hc)⟩)
  rw [h c hc, h d (Module.mem_values_of_class? hclass), Int.ofNat_lt]
  exact hordered.idxOf_lt hmem ⟨c, d, hm.class?_name hc, hd, rfl⟩

theorem Dense.nextId_eq (h : Dense m) : nextId m = m.classes.entries.length := by
  have hids := h
  rw [Dense] at hids
  unfold nextId
  cases hlist : m.classes.values.map (·.id) with
  | nil =>
    have hlength := hids.length_eq
    rw [hlist] at hlength
    have hzero : m.classes.entries.length = 0 := by simpa using hlength.symm
    simp [hzero]
  | cons id rest =>
    rw [hlist] at hids
    have hmax : (id :: rest).max? = some (rest.foldl max id) := max?_cons'
    obtain ⟨hmem, hle⟩ := max?_eq_some_iff.mp hmax
    obtain ⟨n, hn, hmaxEq⟩ := mem_map.mp (hids.mem_iff.mp hmem)
    rw [mem_range] at hn
    have hlast : ((m.classes.entries.length - 1 : Nat) : Int) ∈ id :: rest :=
      hids.mem_iff.mpr (mem_map.mpr ⟨_, mem_range.mpr (by omega), rfl⟩)
    have hge := hle _ hlast
    simp only
    omega

theorem WithLock.dense (h : WithLock m root (nextId m) m') (hdense : Dense m) : Dense m' := by
  have hids : m'.classes.values.map (·.id) =
      m.classes.values.map (·.id) ++ [(m.classes.entries.length : Int)] := by
    simp [Table.values, h.entries, hdense.nextId_eq, Lowering.spinLock]
  rw [Dense, hids, h.entries, length_append, length_singleton, range_succ,
    map_append]
  exact hdense.append_right _

end Hierarchy

end ObjcLowering
