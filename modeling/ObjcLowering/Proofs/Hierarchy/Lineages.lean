import ObjcLowering.Proofs.Hierarchy.Ancestry
import ObjcLowering.Proofs.Texts
import ObjcLowering.TypeArguments.Check

/-!
Constraints on type arguments and the hierarchy: a class may stand wherever one of its ancestors may.
-/

namespace ObjcLowering.TypeArguments

open Hierarchy Text List

theorem stated?_eq_some : stated? up = some b ↔ up = some b ∧ b.holds = true := by
  simp [stated?, Option.filter_eq_some_iff]

theorem holds_of_above (h : above m a = some b) : b.holds = true := by
  obtain ⟨c, -, hup⟩ := above_eq_some.mp h
  exact (stated?_eq_some.mp hup).2

@[simp] theorem namesAbove_none : namesAbove m fuel visited none = [] := by
  cases fuel <;> rfl

theorem namesAbove_stated (up : Option Name) :
    namesAbove m fuel visited up = namesAbove m fuel visited (stated? up) := by
  cases up with
  | none => rfl
  | some name =>
    by_cases hname : name.holds = true
    · rw [stated?_eq_some.mpr ⟨rfl, hname⟩]
    · have hstated : stated? (some name) = none := by simp [stated?, Option.filter, hname]
      rw [hstated, namesAbove_none]
      cases fuel with
      | zero => rfl
      | succ fuel => simp [namesAbove, hname]

theorem namesAbove_of_mem (h : a ∈ visited) : namesAbove m fuel visited (some a) = [] := by
  cases fuel with
  | zero => rfl
  | succ fuel => simp [namesAbove, h]

theorem namesAbove_succ (ha : a.holds = true) (hnew : a ∉ visited) :
    namesAbove m (fuel + 1) visited (some a) = a :: namesAbove m fuel (a :: visited) (above m a) := by
  rw [above, ← namesAbove_stated]
  cases hclass : m.class? a with
  | none => simp [namesAbove, ha, hnew, hclass]
  | some cls => simp [namesAbove, ha, hnew, hclass]

/-- The walk has come to `a`: every name that it has passed is linked to another one, or to `a`. -/
structure Walked (m : Module) (visited : List Name) (a : Name) : Prop where
  nodup : visited.Nodup
  linked : ∀ y ∈ visited, ∃ z ∈ a :: visited, Up m y z

namespace Walked

theorem start (m : Module) (a : Name) : Walked m [] a := ⟨.nil, by simp⟩

theorem step (h : Walked m visited a) (hnew : a ∉ visited) (hup : Up m a b) :
    Walked m (a :: visited) b := by
  refine ⟨nodup_cons.mpr ⟨hnew, h.nodup⟩, fun y hy => ?_⟩
  cases hy with
  | head => exact ⟨b, .head _, hup⟩
  | tail _ hy =>
    obtain ⟨z, hz, hlink⟩ := h.linked y hy
    exact ⟨z, .tail _ hz, hlink⟩

theorem length_le (h : Walked m visited a) : visited.length ≤ m.classes.entries.length := by
  have hsubset : visited ⊆ m.classes.names := fun y hy =>
    let ⟨_, _, hlink⟩ := h.linked y hy
    mem_names_of_above hlink
  simpa using (h.nodup.subperm hsubset).length_le

theorem mem_of_reach (h : Walked m visited a) (ha : a ∈ visited)
    (hx : Relation.ReflTransGen (Up m) a x) : x ∈ visited := by
  induction hx with
  | refl => exact ha
  | tail _ hstep ih =>
    obtain ⟨z, hz, hlink⟩ := h.linked _ ih
    rw [Up, hstep] at hlink
    cases hlink
    exact (mem_cons.mp hz).elim (· ▸ ha) id

end Walked

theorem reach_of_mem_namesAbove (ha : a.holds = true) (hx : x ∈ namesAbove m fuel visited (some a)) :
    Relation.ReflTransGen (Up m) a x := by
  induction fuel generalizing visited a with
  | zero => cases hx
  | succ fuel ih =>
    by_cases hmem : a ∈ visited
    · rw [namesAbove_of_mem hmem] at hx
      cases hx
    · rw [namesAbove_succ ha hmem] at hx
      cases hx with
      | head => exact .refl
      | tail _ hx =>
        cases hup : above m a with
        | none =>
          rw [hup, namesAbove_none] at hx
          cases hx
        | some b =>
          rw [hup] at hx
          exact .head hup (ih (holds_of_above hup) hx)

theorem mem_namesAbove_of_reach (h : Walked m visited a) (ha : a.holds = true)
    (hfuel : m.classes.entries.length < fuel + visited.length)
    (hx : Relation.ReflTransGen (Up m) a x) : x ∈ visited ∨ x ∈ namesAbove m fuel visited (some a) := by
  induction fuel generalizing visited a with
  | zero =>
    have hlength := h.length_le
    omega
  | succ fuel ih =>
    by_cases hmem : a ∈ visited
    · exact .inl (h.mem_of_reach hmem hx)
    · rw [namesAbove_succ ha hmem]
      obtain rfl | ⟨b, hup, hx⟩ := Relation.ReflTransGen.cases_head hx
      · exact .inr (.head _)
      · rw [hup]
        obtain hx | hx := ih (h.step hmem hup) (holds_of_above hup) (by simp; omega) hx
        · cases hx with
          | head => exact .inr (.head _)
          | tail _ hx => exact .inl hx
        · exact .inr (.tail _ hx)

theorem namesAbove_enough (h : Walked m visited a) (hfuel : m.classes.entries.length < fuel + visited.length)
    (hfuel' : m.classes.entries.length < fuel' + visited.length) :
    namesAbove m fuel visited (some a) = namesAbove m fuel' visited (some a) := by
  have hlength := h.length_le
  induction fuel generalizing visited a fuel' with
  | zero => omega
  | succ fuel ih =>
    obtain ⟨fuel', rfl⟩ : ∃ k, fuel' = k + 1 := ⟨fuel' - 1, by omega⟩
    by_cases hmem : a ∈ visited
    · rw [namesAbove_of_mem hmem, namesAbove_of_mem hmem]
    · by_cases ha : a.holds = true
      · rw [namesAbove_succ ha hmem, namesAbove_succ ha hmem]
        cases hup : above m a with
        | none => rw [namesAbove_none, namesAbove_none]
        | some b =>
          have hstep := h.step hmem hup
          have hrest : ∀ k, m.classes.entries.length < k + 1 + visited.length →
              m.classes.entries.length < k + (a :: visited).length := by
            intro k hk
            rw [length_cons]
            omega
          rw [ih hstep (hrest _ hfuel) (hrest _ hfuel') hstep.length_le]
      · simp [namesAbove, ha]

theorem holds_normalizeClass (name : Name) : (normalizeClass name).holds = name.holds := by
  unfold normalizeClass
  cases hlookup : classAliases.lookup name with
  | none => rfl
  | some own =>
    obtain ⟨before, after, hsplit, -⟩ := lookup_eq_some_iff.mp hlookup
    have hmem : (name, own) ∈ classAliases := by simp [hsplit]
    have hall : ∀ e ∈ classAliases, e.1.holds = true ∧ e.2.holds = true := by decide
    rw [Option.getD_some, (hall _ hmem).1, (hall _ hmem).2]

theorem mem_lineage :
    x ∈ lineage m a ↔ a.holds = true ∧ Relation.ReflTransGen (Up m) (normalizeClass a) x := by
  have hholds := holds_normalizeClass a
  by_cases ha : a.holds = true
  · rw [ha] at hholds
    simp only [ha, true_and]
    constructor
    · exact reach_of_mem_namesAbove hholds
    · intro hx
      have hmem : x ∈ [] ∨ x ∈ lineage m a :=
        mem_namesAbove_of_reach (.start m _) hholds (by simp) hx
      exact hmem.resolve_left not_mem_nil
  · simp [lineage, namesAbove, hholds, ha]

theorem isSameOrSubclass_iff : isSameOrSubclass m a b = true ↔
    a.holds = true ∧ Relation.ReflTransGen (Up m) (normalizeClass a) (normalizeClass b) := by
  rw [isSameOrSubclass, contains_iff_mem, mem_lineage]

theorem conformsTo_iff : conformsTo m a protocol = true ↔
    a.holds = true ∧ ∃ x cls, Relation.ReflTransGen (Up m) (normalizeClass a) x ∧
      m.class? x = some cls ∧ protocol ∈ cls.protocols := by
  rw [conformsTo, any_eq_true]
  constructor
  · rintro ⟨x, hx, hadopts⟩
    obtain ⟨ha, hreach⟩ := mem_lineage.mp hx
    cases hclass : m.class? x with
    | none => simp [hclass] at hadopts
    | some cls => exact ⟨ha, x, cls, hreach, hclass, by simpa [hclass] using hadopts⟩
  · rintro ⟨ha, x, cls, hreach, hclass, hadopts⟩
    exact ⟨x, mem_lineage.mpr ⟨ha, hreach⟩, by simpa [hclass] using hadopts⟩

theorem holds_of_className? (h : className? type = some c) : (Json.text c).holds = true := by
  have hne : c.toList ≠ [] := by
    unfold className? at h
    grind [String.toList_ofList]
  simpa [Json.holds] using hne

theorem isPrefix_trimRightBy (hc : p c = false) (front rest : List Char) :
    front ++ [c] <+: Chars.trimRightBy p (front ++ [c] ++ rest) := by
  unfold Chars.trimRightBy
  rw [reverse_append, dropWhile_append]
  split
  · simp [hc]
  · simp

theorem protocolOf?_of_className? (h : className? type = some c) : protocolOf? type = none := by
  unfold protocolOf?
  cases hafter : Chars.after? "id<".toList type.toList with
  | none => rfl
  | some rest =>
    have htype : type.toList = ['i', 'd'] ++ ['<'] ++ rest := Chars.eq_append_of_after? hafter
    have hleft : Chars.trimLeft type.toList = ['i', 'd'] ++ ['<'] ++ rest := by
      rw [htype]
      rfl
    have htrim : (trim type).toList =
        Chars.trimRightBy isBlank (['i', 'd'] ++ ['<'] ++ rest) := by
      rw [← hleft, trim, String.toList_ofList]
      rfl
    have hbegins : begins "id" (trim type) = true := by
      have hprefix := isPrefix_trimRightBy (p := isBlank) (c := '<') (by decide) ['i', 'd'] rest
      rw [begins, htrim]
      exact isPrefixOf_iff_prefix.mpr ((prefix_append _ _).trans hprefix)
    simp [className?, hbegins] at h

theorem satisfies_of_reach (hc : className? type = some c)
    (hd : className? type' = some d) (hplain : normalizeClass (.text c) = .text c)
    (hplain' : normalizeClass (.text d) = .text d)
    (hup : Relation.ReflTransGen (Up m) (.text d) (.text c))
    (h : satisfies m type constraint = true) : satisfies m type' constraint = true := by
  have hholds := holds_of_className? hd
  unfold satisfies at h ⊢
  simp only [protocolOf?_of_className? hc, protocolOf?_of_className? hd, hc, hd] at h ⊢
  cases hconstraint : protocolOf? constraint with
  | some required =>
    simp only [hconstraint, conformsTo_iff, hplain, hplain'] at h ⊢
    obtain ⟨-, x, cls, hreach, hadopts⟩ := h
    exact ⟨hholds, x, cls, hup.trans hreach, hadopts⟩
  | none =>
    simp only [hconstraint, isSameOrSubclass_iff, hplain, hplain'] at h ⊢
    exact ⟨hholds, hup.trans h.2⟩

/-- The walks up follow the links to their end or once round a circle, however many steps they may
take. The relations that they decide are those of the links, so they compose, and a constraint that
holds of a class holds of the classes below it. -/
theorem constraints_follow_links (m : Module) (a b protocol : Name) :
    (∀ fuel, m.classes.entries.length < fuel →
      namesAbove m fuel [] (some (normalizeClass a)) = lineage m a) ∧
    (isSameOrSubclass m a b = true ↔
      a.holds = true ∧ Relation.ReflTransGen (Up m) (normalizeClass a) (normalizeClass b)) ∧
    (conformsTo m a protocol = true ↔
      a.holds = true ∧ ∃ x cls, Relation.ReflTransGen (Up m) (normalizeClass a) x ∧
        m.class? x = some cls ∧ protocol ∈ cls.protocols) ∧
    (a.holds = true → isSameOrSubclass m a a = true) ∧
    (∀ c, isSameOrSubclass m a b = true → isSameOrSubclass m b c = true →
      isSameOrSubclass m a c = true) ∧
    (∀ type type' constraint c d : String, className? type = some c → className? type' = some d →
      normalizeClass (.text c) = .text c → normalizeClass (.text d) = .text d →
      Relation.ReflTransGen (Up m) (.text d) (.text c) →
      satisfies m type constraint = true → satisfies m type' constraint = true) := by
  refine ⟨fun fuel hfuel => ?_, isSameOrSubclass_iff, conformsTo_iff, fun ha => ?_, ?_, ?_⟩
  · exact namesAbove_enough (.start m _) hfuel (by simp)
  · exact isSameOrSubclass_iff.mpr ⟨ha, .refl⟩
  · intro c hab hbc
    obtain ⟨ha, hup⟩ := isSameOrSubclass_iff.mp hab
    obtain ⟨-, hup'⟩ := isSameOrSubclass_iff.mp hbc
    exact isSameOrSubclass_iff.mpr ⟨ha, hup.trans hup'⟩
  · intro type type' constraint c d hc hd hplain hplain' hup
    exact satisfies_of_reach hc hd hplain hplain' hup

def circle : Module := .ofLinks [("A", some "B"), ("B", some "A")]

theorem circle_constraints : satisfies circle "B *" "A *" = true ∧ satisfies circle "A *" "A *" = true :=
  ⟨by decide +kernel, (constraints_follow_links circle "A" "B" "P").2.2.2.2.2 "B *" "A *" "A *" "B" "A"
    (by decide +kernel) (by decide +kernel) rfl rfl (.single rfl) (by decide +kernel)⟩

theorem empty_name_not_below_itself :
    Relation.ReflTransGen (Up circle) (normalizeClass "") (normalizeClass "") ∧
      isSameOrSubclass circle "" "" = false :=
  ⟨.refl, by decide⟩

end ObjcLowering.TypeArguments
