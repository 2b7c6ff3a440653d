import Mathlib.Data.List.Rotate
import ObjcLowering.Proofs.RetainCycles.Inheritance
import ObjcLowering.RetainCycles.Report

/-!
What is reported about retain cycles: of each cycle one rotation, and some cycle exactly if a class keeps
itself alive through strong references.
-/

namespace ObjcLowering.RetainCycles

open Relation List

variable {names loop loop' cycle : List String}

def lesser (best n : String) : String := if n < best then n else best

theorem leastName_cons (n : String) (ns : List String) : leastName (n :: ns) = ns.foldl lesser n := rfl

theorem lesser_le (best n : String) : lesser best n ≤ best ∧ lesser best n ≤ n := by
  unfold lesser
  split
  · next h => exact ⟨String.not_lt.mp (String.lt_asymm h), String.le_refl n⟩
  · next h => exact ⟨String.le_refl best, String.not_lt.mp h⟩

theorem foldl_lesser (best : String) (ns : List String) :
    ns.foldl lesser best ∈ best :: ns ∧ ∀ n ∈ best :: ns, ns.foldl lesser best ≤ n := by
  induction ns generalizing best with
  | nil => simp
  | cons n ns ih =>
    obtain ⟨hmem, hle⟩ := ih (lesser best n)
    rw [foldl_cons]
    obtain ⟨hbest, hn⟩ := lesser_le best n
    have hfirst := hle _ (.head _)
    constructor
    · rcases mem_cons.mp hmem with heq | hmem
      · rw [heq]
        unfold lesser
        split
        · exact .tail _ (.head _)
        · exact .head _
      · exact .tail _ (.tail _ hmem)
    · simp only [forall_mem_cons]
      exact ⟨String.le_trans hfirst hbest, String.le_trans hfirst hn, fun k hk => hle k (.tail _ hk)⟩

theorem leastName_mem (h : names ≠ []) : leastName names ∈ names := by
  cases names with
  | nil => exact absurd rfl h
  | cons n ns =>
    rw [leastName_cons]
    exact (foldl_lesser n ns).1

theorem leastName_le (h : x ∈ names) : leastName names ≤ x := by
  cases names with
  | nil => cases h
  | cons n ns =>
    rw [leastName_cons]
    exact (foldl_lesser n ns).2 x h

theorem leastName_eq_of_perm (h : loop.Perm loop') : leastName loop = leastName loop' := by
  cases loop with
  | nil => rw [h.nil_eq]
  | cons n ns =>
    have hne : loop' ≠ [] := fun heq => cons_ne_nil n ns (h.trans (heq ▸ .refl _)).eq_nil
    refine String.le_antisymm (leastName_le (h.mem_iff.mpr (leastName_mem hne))) (leastName_le ?_)
    exact h.mem_iff.mp (leastName_mem (cons_ne_nil n ns))

theorem turned_isRotated (cycle : List String) : (turned cycle).IsRotated cycle.dropLast := by
  have hsplit := @isRotated_append _ (cycle.dropLast.dropWhile (· != leastName cycle.dropLast))
    (cycle.dropLast.takeWhile (· != leastName cycle.dropLast))
  rwa [takeWhile_append_dropWhile] at hsplit

theorem head?_turned (h : cycle.dropLast ≠ []) :
    (turned cycle).head? = some (leastName cycle.dropLast) := by
  obtain ⟨rest, hdrop, -⟩ := exists_dropWhile_ne (leastName_mem h)
  unfold turned
  dsimp only
  rw [hdrop, cons_append, head?_cons]

theorem eq_of_isRotated (hnodup : loop.Nodup) (h : loop.IsRotated loop') (hhead : loop'.head? = loop.head?) :
    loop' = loop := by
  obtain ⟨n, hn, rfl⟩ := isRotated_iff_mod.mp h
  rcases eq_or_ne loop [] with rfl | hne
  · simp
  have hpos := length_pos_of_ne_nil hne
  rcases hn.lt_or_eq with hlt | rfl
  · rw [head?_rotate hlt, head?_eq_getElem?, getElem?_eq_getElem hlt,
      getElem?_eq_getElem hpos, Option.some_inj, hnodup.getElem_inj_iff] at hhead
    rw [hhead, rotate_zero]
  · exact rotate_length loop

theorem turned_eq_iff (hnodup : cycle.dropLast.Nodup) (hne : cycle.dropLast ≠ []) :
    turned cycle = turned cycle' ↔ cycle.dropLast.IsRotated cycle'.dropLast := by
  constructor
  · intro h
    have hturned := (turned_isRotated cycle).symm
    rw [h] at hturned
    exact hturned.trans (turned_isRotated cycle')
  · intro h
    have hne' : cycle'.dropLast ≠ [] := fun heq => hne (by simpa [heq] using h)
    have hrotated := (turned_isRotated cycle).trans (h.trans (turned_isRotated cycle').symm)
    refine (eq_of_isRotated ((turned_isRotated cycle).nodup_iff.mpr hnodup) hrotated ?_).symm
    rw [head?_turned hne, head?_turned hne', leastName_eq_of_perm h.perm]

structure OnePerRotation (found reported : List (List String)) : Prop where
  sublist : reported.Sublist found
  apart : reported.Pairwise fun c d => ¬ c.dropLast.IsRotated d.dropLast
  covers : ∀ c ∈ found, ∃ d ∈ reported, c.dropLast.IsRotated d.dropLast

theorem distinctCyclesFrom_sublist (seen : List (List String)) :
    (distinctCyclesFrom seen cycles).Sublist cycles := by
  induction cycles generalizing seen with
  | nil => exact .refl _
  | cons c cs ih =>
    rw [distinctCyclesFrom]
    split
    · exact (ih seen).cons c
    · exact (ih _).cons_cons c

theorem notMem_of_mem_distinctCyclesFrom
    (h : cycle ∈ distinctCyclesFrom seen cycles) : turned cycle ∉ seen := by
  induction cycles generalizing seen with
  | nil => cases h
  | cons c cs ih =>
    rw [distinctCyclesFrom] at h
    by_cases hseen : turned c ∈ seen
    · rw [if_pos (contains_iff_mem.mpr hseen)] at h
      exact ih h
    · rw [if_neg (mt contains_iff_mem.mp hseen)] at h
      rcases mem_cons.mp h with rfl | h
      · exact hseen
      · exact fun hmem => ih h (.tail _ hmem)

theorem distinctCyclesFrom_pairwise (seen : List (List String)) :
    (distinctCyclesFrom seen cycles).Pairwise fun c d => turned c ≠ turned d := by
  induction cycles generalizing seen with
  | nil => exact .nil
  | cons c cs ih =>
    rw [distinctCyclesFrom]
    split
    · exact ih seen
    · refine .cons (fun d hd heq => ?_) (ih _)
      exact notMem_of_mem_distinctCyclesFrom hd (heq ▸ .head _)

theorem exists_turned_eq (seen : List (List String)) (h : cycle ∈ cycles) :
    turned cycle ∈ seen ∨ ∃ d ∈ distinctCyclesFrom seen cycles, turned cycle = turned d := by
  induction cycles generalizing seen with
  | nil => cases h
  | cons c cs ih =>
    rw [distinctCyclesFrom]
    by_cases hseen : turned c ∈ seen
    · rw [if_pos (contains_iff_mem.mpr hseen)]
      rcases mem_cons.mp h with rfl | h
      · exact .inl hseen
      · exact ih seen h
    · rw [if_neg (mt contains_iff_mem.mp hseen)]
      rcases mem_cons.mp h with rfl | h
      · exact .inr ⟨cycle, .head _, rfl⟩
      · rcases ih (turned c :: seen) h with hmem | ⟨d, hd, heq⟩
        · rcases mem_cons.mp hmem with heq | hmem
          · exact .inr ⟨c, .head _, heq⟩
          · exact .inl hmem
        · exact .inr ⟨d, .tail _ hd, heq⟩

theorem onePerRotation_distinctCycles
    (h : ∀ c ∈ cycles, c.dropLast.Nodup ∧ c.dropLast ≠ []) : OnePerRotation cycles (distinctCycles cycles) := by
  have hsublist : (distinctCycles cycles).Sublist cycles := distinctCyclesFrom_sublist []
  refine ⟨hsublist, ?_, fun c hc => ?_⟩
  · refine (distinctCyclesFrom_pairwise []).imp_of_mem fun {c d} hc _ hne hrotated => hne ?_
    obtain ⟨hnodup, hnil⟩ := h c (hsublist.subset hc)
    exact (turned_eq_iff hnodup hnil).mpr hrotated
  · obtain ⟨hnodup, hnil⟩ := h c hc
    obtain ⟨d, hd, heq⟩ := (exists_turned_eq [] hc).resolve_left not_mem_nil
    exact ⟨d, hd, (turned_eq_iff hnodup hnil).mp heq⟩

def IsShown (refs : Table String (List StrongRef)) (a b : String) : Prop :=
  ∃ r ∈ refsOf refs a, r.target = b ∧ edgeLine refs a b = s!"    {a}.{r.field} ({b} *) — strong\n"

theorem isShown_of_mem (hr : r ∈ refsOf refs a) (hb : r.target = b) : IsShown refs a b := by
  have hsome : ((refsOf refs a).find? fun r => r.target == b).isSome = true :=
    find?_isSome.mpr ⟨r, hr, beq_iff_eq.mpr hb⟩
  obtain ⟨first, hfirst⟩ := Option.isSome_iff_exists.mp hsome
  have htarget : first.target = b := by simpa using find?_some hfirst
  refine ⟨first, mem_of_find?_eq_some hfirst, htarget, ?_⟩
  unfold refsOf at hfirst
  rw [edgeLine, hfirst, ← htarget]

theorem exitCode_eq_one_iff : exitCode cycles = 1 ↔ cycles ≠ [] := by
  cases cycles <;> simp [exitCode]

/-- The search for retain cycles, whatever order the successors of a class are visited in: it reports
cycles, and the exit code says so, exactly if some class refers back to itself, where a class has its
own references and those of its ancestors. Every cycle found is one of the graph and repeats no class,
each of its steps has a field to show for it, and of the cycles that are rotations of each other one is
reported. -/
theorem cycles_reported_iff_retained (supers : Table String (Option String))
    (refs : Table String (List StrongRef)) (hrefs : refs.names.Nodup) (graph : Table String (List String))
    (hgraph : SameEdges (graphOf (inheritRefs supers refs)) graph) :
    (detectCycles graph ≠ [] ↔ ∃ cls, TransGen (Retains supers refs) cls cls) ∧
      (exitCode (detectCycles graph) = 1 ↔ detectCycles graph ≠ []) ∧
      (∀ cycle ∈ detectCycles graph,
        IsCycle graph cycle ∧ cycle.IsChain (IsShown (inheritRefs supers refs))) ∧
      OnePerRotation (detectCycles graph) (distinctCycles (detectCycles graph)) := by
  have hedge : Edge graph = Retains supers refs := by
    funext a b
    exact propext (edge_iff_retains hrefs hgraph)
  refine ⟨?_, exitCode_eq_one_iff, fun cycle hcycle => ?_, ?_⟩
  · rw [detectCycles_ne_nil_iff, hedge]
  · have hfound := isCycle_of_mem_detectCycles hcycle
    refine ⟨hfound, hfound.edges.imp fun a b hab => ?_⟩
    obtain ⟨r, hr, hb⟩ := (edge_graphOf_iff (nodup_names_inheritRefs hrefs)).mp (hgraph.edge_iff.mp hab)
    exact isShown_of_mem hr hb
  · refine onePerRotation_distinctCycles fun cycle hcycle => ?_
    have hfound := isCycle_of_mem_detectCycles hcycle
    refine ⟨hfound.nodup, fun hnil => ?_⟩
    have hlength := congrArg length hnil
    rw [length_dropLast, length_nil] at hlength
    have := hfound.length
    omega

def mutualSupers : Table String (Option String) := ⟨[("Left", some "Right"), ("Right", some "Left")]⟩

def sharedRefs : Table String (List StrongRef) :=
  ⟨[("Right", [⟨"item", "Item"⟩, ⟨"log", "Log"⟩]), ("Item", [⟨"owner", "Left"⟩])]⟩

theorem inherited_cycle_reported :
    (∃ cls, TransGen (Retains mutualSupers sharedRefs) cls cls) ∧
      exitCode (detectCycles ⟨[("Right", ["Log", "Item"]), ("Item", ["Left"]), ("Left", ["Log", "Item"])]⟩) =
        1 := by
  have hrefs : sharedRefs.names.Nodup := by decide
  have hgraph : SameEdges (graphOf (inheritRefs mutualSupers sharedRefs))
      ⟨[("Right", ["Log", "Item"]), ("Item", ["Left"]), ("Left", ["Log", "Item"])]⟩ := by
    have hrefs : inheritRefs mutualSupers sharedRefs = ⟨[("Right", [⟨"item", "Item"⟩, ⟨"log", "Log"⟩]),
      ("Item", [⟨"owner", "Left"⟩]), ("Left", [⟨"item", "Item"⟩, ⟨"log", "Log"⟩])]⟩ := by rfl
    have hsort : ∀ names : List String, names.Perm (sortNames names) := fun names => (mergeSort_perm _ _).symm
    rw [hrefs]
    have htwo : Perm ["Log", "Item"] (sortNames ["Item", "Log"]) := (Perm.swap _ _ _).trans (hsort _)
    exact .cons ⟨rfl, htwo⟩ (.cons ⟨rfl, hsort ["Left"]⟩ (.cons ⟨rfl, htwo⟩ .nil))
  obtain ⟨hfound, hexit, -⟩ := cycles_reported_iff_retained mutualSupers sharedRefs hrefs _ hgraph
  have hround : TransGen (Retains mutualSupers sharedRefs) "Left" "Left" := by
    have hup : Inherits mutualSupers "Left" "Right" := ⟨rfl, by decide⟩
    refine .head (b := "Item") ⟨"Right", .single hup, ⟨"item", "Item"⟩, .head _, rfl⟩ (.single ?_)
    exact ⟨"Item", .refl, ⟨"owner", "Left"⟩, .head _, rfl⟩
  exact ⟨⟨"Left", hround⟩, hexit.mpr (hfound.mpr ⟨"Left", hround⟩)⟩

end ObjcLowering.RetainCycles
