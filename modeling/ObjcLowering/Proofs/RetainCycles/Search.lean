import Mathlib.Data.List.Chain
import Mathlib.Data.List.Perm.Subperm
import Mathlib.Logic.Relation
import ObjcLowering.Proofs.Tables
import ObjcLowering.RetainCycles.Detection

/-! The depth-first search for cycles. -/

namespace ObjcLowering.RetainCycles

open Relation List

variable {s s' : Search} {a b node next : String} {path cycle : List String}

def successors (graph : Table String (List String)) (node : String) : List String :=
  (graph.find? node).getD []

def Edge (graph : Table String (List String)) (a b : String) : Prop := b ∈ successors graph a

structure IsCycle (graph : Table String (List String)) (cycle : List String) : Prop where
  length : 2 ≤ cycle.length
  ends : cycle.head? = cycle.getLast?
  nodup : cycle.dropLast.Nodup
  edges : cycle.IsChain (Edge graph)

theorem mem_entries_of_edge (h : Edge graph a b) : ∃ targets, (a, targets) ∈ graph.entries ∧ b ∈ targets := by
  unfold Edge successors at h
  cases hfind : graph.find? a with
  | none => simp [hfind] at h
  | some targets =>
    rw [hfind, Option.getD_some] at h
    exact ⟨targets, Table.mem_of_find? hfind, h⟩

theorem mem_names_of_edge (h : Edge graph a b) : a ∈ graph.names := by
  obtain ⟨targets, hentry, -⟩ := mem_entries_of_edge h
  exact Table.mem_names.mpr ⟨targets, hentry⟩

theorem mem_graphNodes_of_name (h : a ∈ graph.names) : a ∈ graphNodes graph := by
  obtain ⟨targets, hentry⟩ := Table.mem_names.mp h
  exact mem_distinct.mpr (mem_flatMap.mpr ⟨_, hentry, .head _⟩)

theorem mem_graphNodes_of_edge (h : Edge graph a b) : b ∈ graphNodes graph := by
  obtain ⟨targets, hentry, hb⟩ := mem_entries_of_edge h
  exact mem_distinct.mpr (mem_flatMap.mpr ⟨_, hentry, .tail _ hb⟩)

theorem transGen_of_isChain (h : (a :: b :: rest).IsChain (Edge graph))
    (hc : (b :: rest).getLast? = some c) : TransGen (Edge graph) a c := by
  induction rest generalizing a b with
  | nil =>
    cases hc
    exact .single (isChain_cons_cons.mp h).1
  | cons d rest ih =>
    obtain ⟨hab, hrest⟩ := isChain_cons_cons.mp h
    exact .head hab (ih hrest (by rwa [getLast?_cons_cons] at hc))

theorem IsCycle.transGen (h : IsCycle graph cycle) : ∃ a, TransGen (Edge graph) a a := by
  obtain ⟨hlength, hends, -, hedges⟩ := h
  cases cycle with
  | nil => simp at hlength
  | cons a rest =>
    cases rest with
    | nil => simp at hlength
    | cons b rest =>
      rw [head?_cons, getLast?_cons_cons] at hends
      exact ⟨a, transGen_of_isChain hedges hends.symm⟩

theorem exists_dropWhile_ne (h : a ∈ names) :
    ∃ rest, names.dropWhile (· != a) = a :: rest ∧ a :: rest <:+ names := by
  obtain ⟨front, rest, hsplit, hfront⟩ := eq_append_cons_of_mem h
  have hskip : ∀ x ∈ front, (x != a) = true := fun x hx => bne_iff_ne.mpr fun heq => hfront (heq ▸ hx)
  refine ⟨rest, ?_, front, hsplit.symm⟩
  rw [hsplit, dropWhile_append_of_pos hskip, dropWhile_cons_of_neg (by simp)]

theorem isCycle_cycleThrough (hnodup : path.Nodup) (hchain : path.reverse.IsChain (Edge graph))
    (hlast : ∀ last ∈ path.head?, Edge graph last next) (hnext : next ∈ path) :
    IsCycle graph (cycleThrough path next) := by
  obtain ⟨rest, hdrop, hsuffix⟩ := exists_dropWhile_ne (mem_reverse.mpr hnext)
  have hend : (next :: rest).getLast? = path.head? := by
    obtain ⟨front, hsplit⟩ := hsuffix
    rw [← getLast?_reverse, ← hsplit, getLast?_append_of_ne_nil _ (cons_ne_nil _ _)]
  rw [cycleThrough, hdrop]
  refine ⟨by simp, by rw [getLast?_concat, cons_append, head?_cons], ?_, ?_⟩
  · rw [dropLast_concat]
    exact (nodup_reverse.mpr hnodup).sublist hsuffix.sublist
  · refine isChain_append.mpr ⟨hchain.suffix hsuffix, isChain_singleton _, ?_⟩
    intro last hmem first hfirst
    rw [hend] at hmem
    cases hfirst
    exact hlast last hmem

def LeadsDown (graph : Table String (List String)) : List String → Prop
  | [] => True
  | a :: rest => (∀ b, Edge graph a b → b ∈ rest) ∧ LeadsDown graph rest

theorem LeadsDown.mem_of_edge (h : LeadsDown graph done) (ha : a ∈ done)
    (hab : Edge graph a b) : b ∈ done := by
  induction done with
  | nil => cases ha
  | cons d done ih =>
    rcases mem_cons.mp ha with rfl | ha
    · exact .tail _ (h.1 b hab)
    · exact .tail _ (ih h.2 ha)

theorem LeadsDown.mem_of_reflTransGen (h : LeadsDown graph done) (ha : a ∈ done)
    (hab : ReflTransGen (Edge graph) a b) : b ∈ done := by
  induction hab with
  | refl => exact ha
  | tail _ hstep ih => exact h.mem_of_edge ih hstep

theorem LeadsDown.not_transGen (h : LeadsDown graph done) (ha : a ∈ done) : ¬ TransGen (Edge graph) a a := by
  intro hround
  induction done with
  | nil => cases ha
  | cons d done ih =>
    refine ih h.2 ?_
    rcases mem_cons.mp ha with rfl | ha
    · obtain ⟨b, hab, hback⟩ := TransGen.head'_iff.mp hround
      exact h.2.mem_of_reflTransGen (h.1 b hab) hback
    · exact ha

structure Search.Sound (graph : Table String (List String)) (s : Search) : Prop where
  nodup : s.path.Nodup
  chain : s.path.reverse.IsChain (Edge graph)
  subset : s.path ⊆ graphNodes graph
  isCycle : ∀ cycle ∈ s.cycles, IsCycle graph cycle
  leadsDown : s.cycles = [] → LeadsDown graph s.finished

structure Search.Continues (s s' : Search) : Prop where
  path : s'.path = s.path
  finished : s.finished ⊆ s'.finished
  cycles : s.cycles <+: s'.cycles

theorem Search.Continues.refl (s : Search) : s.Continues s :=
  ⟨rfl, Subset.refl _, prefix_refl _⟩

theorem Search.Continues.trans {s₁ s₂ s₃ : Search} (h : s₁.Continues s₂) (h' : s₂.Continues s₃) :
    s₁.Continues s₃ :=
  ⟨h'.path.trans h.path, Subset.trans h.finished h'.finished, h.cycles.trans h'.cycles⟩

theorem Search.Continues.cycles_eq_nil (h : s.Continues s') (hs' : s'.cycles = []) : s.cycles = [] := by
  have hprefix := h.cycles
  rw [hs'] at hprefix
  exact prefix_nil.mp hprefix

def advance (graph : Table String (List String)) (fuel : Nat) (s : Search) (next : String) : Search :=
  if s.path.contains next then { s with cycles := s.cycles ++ [cycleThrough s.path next] }
  else if s.finished.contains next then s
  else visit graph fuel next s

def Search.enter (s : Search) (node : String) : Search := { s with path := node :: s.path }

def Search.leave (s : Search) (node : String) : Search :=
  { s with path := s.path.tail, finished := node :: s.finished }

theorem visit_succ (graph : Table String (List String)) (fuel : Nat) (node : String) (s : Search) :
    visit graph (fuel + 1) node s =
      ((successors graph node).foldl (advance graph fuel) (s.enter node)).leave node := rfl

/-- What a search from a class achieves: it comes back to where it was, with the class finished. -/
def Search.Finishes (graph : Table String (List String)) (s : Search) (node : String) (s' : Search) : Prop :=
  s'.Sound graph ∧ s.Continues s' ∧ node ∈ s'.finished

structure Search.MayEnter (graph : Table String (List String)) (s : Search) (node : String) : Prop where
  notMem : node ∉ s.path
  isNode : node ∈ graphNodes graph
  edge : ∀ last ∈ s.path.head?, Edge graph last node

theorem Search.MayEnter.fuel_pos (h : s.MayEnter graph node) (hs : s.Sound graph)
    (hfuel : (graphNodes graph).length ≤ fuel + s.path.length) : 0 < fuel := by
  have hnodup : (node :: s.path).Nodup := nodup_cons.mpr ⟨h.notMem, hs.nodup⟩
  have hsubset : node :: s.path ⊆ graphNodes graph := cons_subset.mpr ⟨h.isNode, hs.subset⟩
  have hlength := (hnodup.subperm hsubset).length_le
  rw [length_cons] at hlength
  omega

theorem Search.Sound.enter (hs : s.Sound graph) (h : s.MayEnter graph node) : (s.enter node).Sound graph where
  nodup := nodup_cons.mpr ⟨h.notMem, hs.nodup⟩
  chain := by
    rw [Search.enter, reverse_cons]
    refine isChain_append.mpr ⟨hs.chain, isChain_singleton _, fun last hlast first hfirst => ?_⟩
    rw [getLast?_reverse] at hlast
    cases hfirst
    exact h.edge last hlast
  subset := cons_subset.mpr ⟨h.isNode, hs.subset⟩
  isCycle := hs.isCycle
  leadsDown := hs.leadsDown

theorem Search.Sound.advance (hs : s.Sound graph) (hpath : s.path = node :: path) (hedge : Edge graph node next)
    (hvisit : s.MayEnter graph next → s.Finishes graph next (visit graph fuel next s)) :
    (advance graph fuel s next).Sound graph ∧ s.Continues (RetainCycles.advance graph fuel s next) ∧
      ((RetainCycles.advance graph fuel s next).cycles = [] →
        next ∈ (RetainCycles.advance graph fuel s next).finished) := by
  have hlast : ∀ last ∈ s.path.head?, Edge graph last next := by
    intro last hmem
    rw [hpath, head?_cons, Option.mem_some_iff] at hmem
    exact hmem ▸ hedge
  unfold RetainCycles.advance
  by_cases hmem : next ∈ s.path
  · rw [if_pos (contains_iff_mem.mpr hmem)]
    refine ⟨⟨hs.nodup, hs.chain, hs.subset, ?_, fun h => ?_⟩,
      ⟨rfl, Subset.refl _, prefix_append _ _⟩, fun h => ?_⟩
    · refine forall_mem_append.mpr ⟨hs.isCycle, forall_mem_singleton.mpr ?_⟩
      exact isCycle_cycleThrough hs.nodup hs.chain hlast hmem
    · simp at h
    · simp at h
  rw [if_neg (mt contains_iff_mem.mp hmem)]
  by_cases hdone : next ∈ s.finished
  · rw [if_pos (contains_iff_mem.mpr hdone)]
    exact ⟨hs, .refl s, fun _ => hdone⟩
  · rw [if_neg (mt contains_iff_mem.mp hdone)]
    obtain ⟨hsound, hcontinues, hfinished⟩ := hvisit ⟨hmem, mem_graphNodes_of_edge hedge, hlast⟩
    exact ⟨hsound, hcontinues, fun _ => hfinished⟩

theorem Search.Sound.foldl_advance (fuel : Nat) (targets : List String) (hs : s.Sound graph)
    (hpath : s.path = node :: path)
    (hedges : ∀ next ∈ targets, Edge graph node next)
    (hvisit : ∀ s next, Search.Sound graph s → s.path = node :: path → s.MayEnter graph next →
      s.Finishes graph next (visit graph fuel next s)) :
    (targets.foldl (RetainCycles.advance graph fuel) s).Sound graph ∧
      s.Continues (targets.foldl (RetainCycles.advance graph fuel) s) ∧
      ((targets.foldl (RetainCycles.advance graph fuel) s).cycles = [] →
        targets ⊆ (targets.foldl (RetainCycles.advance graph fuel) s).finished) := by
  induction targets generalizing s with
  | nil => exact ⟨hs, .refl s, fun _ => nil_subset _⟩
  | cons next targets ih =>
    obtain ⟨hnext, hrest⟩ := forall_mem_cons.mp hedges
    obtain ⟨hsound, hstep, hfinished⟩ := hs.advance hpath hnext (hvisit s next hs hpath)
    obtain ⟨hsound', hsteps, hfinished'⟩ := ih hsound (hstep.path.trans hpath) hrest
    refine ⟨hsound', hstep.trans hsteps, fun hnone => cons_subset.mpr ⟨?_, hfinished' hnone⟩⟩
    exact hsteps.finished (hfinished (hsteps.cycles_eq_nil hnone))

/-- A search from a class that may be entered finishes it. The induction is on the fuel, which the
length of the path bounds. -/
theorem Search.Sound.visit (hs : s.Sound graph) (hnode : s.MayEnter graph node)
    (hfuel : (graphNodes graph).length ≤ fuel + s.path.length) :
    s.Finishes graph node (visit graph fuel node s) := by
  induction fuel generalizing s node with
  | zero => exact absurd (hnode.fuel_pos hs hfuel) (Nat.lt_irrefl 0)
  | succ fuel ih =>
    have hentered := hs.enter hnode
    have hbelow : ∀ s₁ next, Search.Sound graph s₁ → s₁.path = node :: s.path → s₁.MayEnter graph next →
        s₁.Finishes graph next (RetainCycles.visit graph fuel next s₁) := by
      intro s₁ next hs₁ hpath hnext
      refine ih hs₁ hnext ?_
      rw [hpath, length_cons]
      omega
    obtain ⟨hsound, hcontinues, hfinished⟩ :=
      hentered.foldl_advance fuel (successors graph node) rfl (fun next hnext => hnext) hbelow
    rw [visit_succ]
    have hpath : ((successors graph node).foldl (RetainCycles.advance graph fuel) (s.enter node)).path =
      node :: s.path := hcontinues.path
    refine ⟨⟨?_, ?_, ?_, hsound.isCycle, fun hnone => ?_⟩, ⟨?_, ?_, hcontinues.cycles⟩, mem_cons_self⟩
    · rw [Search.leave, hpath]
      exact hs.nodup
    · rw [Search.leave, hpath]
      exact hs.chain
    · rw [Search.leave, hpath]
      exact hs.subset
    · exact ⟨fun next hnext => hfinished hnone hnext, hsound.leadsDown hnone⟩
    · rw [Search.leave, hpath]
      rfl
    · exact subset_cons_of_subset _ hcontinues.finished

def start (graph : Table String (List String)) (s : Search) (node : String) : Search :=
  if s.finished.contains node then s else visit graph ((graphNodes graph).length + 1) node s

theorem detectCycles_eq (graph : Table String (List String)) :
    detectCycles graph = (graph.names.foldl (start graph) {}).cycles := rfl

theorem Search.Sound.start (hs : s.Sound graph) (hpath : s.path = []) (hnode : node ∈ graphNodes graph) :
    s.Finishes graph node (start graph s node) := by
  unfold RetainCycles.start
  by_cases hdone : node ∈ s.finished
  · rw [if_pos (contains_iff_mem.mpr hdone)]
    exact ⟨hs, .refl s, hdone⟩
  · rw [if_neg (mt contains_iff_mem.mp hdone)]
    refine hs.visit ⟨?_, hnode, ?_⟩ ?_
    · simp [hpath]
    · simp [hpath]
    · omega

theorem Search.Sound.foldl_start {nodes : List String} (hs : s.Sound graph) (hpath : s.path = [])
    (hnodes : nodes ⊆ graphNodes graph) :
    (nodes.foldl (RetainCycles.start graph) s).Sound graph ∧
      s.Continues (nodes.foldl (RetainCycles.start graph) s) ∧
      nodes ⊆ (nodes.foldl (RetainCycles.start graph) s).finished := by
  induction nodes generalizing s with
  | nil => exact ⟨hs, .refl s, nil_subset _⟩
  | cons node nodes ih =>
    obtain ⟨hnode, hrest⟩ := cons_subset.mp hnodes
    obtain ⟨hsound, hstep, hfinished⟩ := hs.start hpath hnode
    obtain ⟨hsound', hsteps, hfinished'⟩ := ih hsound (hstep.path.trans hpath) hrest
    exact ⟨hsound', hstep.trans hsteps, cons_subset.mpr ⟨hsteps.finished hfinished, hfinished'⟩⟩

theorem sound_start (graph : Table String (List String)) : ({} : Search).Sound graph :=
  ⟨nodup_nil, isChain_nil, nil_subset _, by simp, fun _ => trivial⟩

theorem search_spec (graph : Table String (List String)) :
    (graph.names.foldl (start graph) {}).Sound graph ∧
      graph.names ⊆ (graph.names.foldl (start graph) {}).finished := by
  have hnodes : graph.names ⊆ graphNodes graph := fun node hnode => mem_graphNodes_of_name hnode
  obtain ⟨hsound, -, hfinished⟩ := (sound_start graph).foldl_start rfl hnodes
  exact ⟨hsound, hfinished⟩

theorem isCycle_of_mem_detectCycles (h : cycle ∈ detectCycles graph) : IsCycle graph cycle := by
  rw [detectCycles_eq] at h
  exact (search_spec graph).1.isCycle cycle h

theorem detectCycles_ne_nil_iff (graph : Table String (List String)) :
    detectCycles graph ≠ [] ↔ ∃ a, TransGen (Edge graph) a a := by
  constructor
  · intro h
    obtain ⟨cycle, hcycle⟩ := exists_mem_of_ne_nil _ h
    exact (isCycle_of_mem_detectCycles hcycle).transGen
  · rintro ⟨a, hround⟩ hnone
    obtain ⟨b, hab, -⟩ := TransGen.head'_iff.mp hround
    obtain ⟨hsound, hfinished⟩ := search_spec graph
    rw [detectCycles_eq] at hnone
    exact (hsound.leadsDown hnone).not_transGen (hfinished (mem_names_of_edge hab)) hround

end ObjcLowering.RetainCycles
