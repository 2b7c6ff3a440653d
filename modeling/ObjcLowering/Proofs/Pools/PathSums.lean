import Mathlib
import ObjcLowering.Proofs.Pools.Demand

/-!
How many objects of a class are counted for a function: a sum over the paths of calls that repeat no
function.
-/

namespace ObjcLowering.Pools

open Relation List Table

def amount (t : Table Name Int) (cls : Name) : Int := (t.find? cls).getD 0

@[simp] theorem amount_empty : amount {} cls = 0 := rfl

theorem amount_bump (t : Table Name Int) (a cls : Name) (n : Int) :
    amount (t.bump a n) cls = amount t cls + if cls = a then n else 0 := by
  rw [amount, bump, find?_set]
  split
  · next h => rw [h, Option.getD_some, amount]
  · rw [add_zero, amount]

theorem amount_of_mem (ht : t.names.Nodup) (h : (cls, n) ∈ t.entries) : amount t cls = n := by
  rw [amount, find?_of_mem ht h, Option.getD_some]

theorem amount_addScaled (hextra : extra.names.Nodup) (t : Table Name Int) (factor : Int) (cls : Name) :
    amount (addScaled t factor extra) cls = amount t cls + factor * amount extra cls := by
  obtain ⟨entries⟩ := extra
  rw [addScaled]
  induction entries generalizing t with
  | nil => simp [amount, Table.find?]
  | cons e entries ih =>
    obtain ⟨hnew, hentries⟩ := nodup_cons.mp hextra
    rw [foldl_cons, ih (t.bump e.1 (e.2 * factor)) hentries, amount_bump]
    by_cases hcls : cls = e.1
    · have hnone : (⟨entries⟩ : Table Name Int).find? cls = none :=
        find?_eq_none_iff.mpr (hcls ▸ hnew)
      have hhead : amount ⟨e :: entries⟩ cls = e.2 := amount_of_mem hextra (hcls ▸ .head _)
      rw [if_pos hcls, hhead, amount, amount, hnone, Option.getD_none]
      ring
    · have htail : amount ⟨e :: entries⟩ cls = amount ⟨entries⟩ cls := by
        rw [amount, amount, Table.find?, Table.find?, lookup_cons, beq_false_of_ne hcls]
      rw [if_neg hcls, htail]
      ring

theorem nodup_addScaled (ht : t.names.Nodup) (factor : Int) (extra : Table Name Int) :
    (addScaled t factor extra).names.Nodup := by
  rw [addScaled]
  generalize extra.entries = entries
  induction entries generalizing t with
  | nil => exact ht
  | cons e entries ih => exact ih (nodup_names_set ht _ _)

namespace Counts

def Distinct (counts : Counts) : Prop := ∀ f, (counts.of f).names.Nodup

def count (counts : Counts) (f g : Name) : Int := amount (counts.of f) g

def Nonneg (counts : Counts) : Prop := ∀ f g, 0 ≤ counts.count f g

structure AtMost (counts counts' : Counts) : Prop where
  mentions : ∀ {f g}, counts.Mentions f g → counts'.Mentions f g
  count_le : ∀ f g, counts.count f g ≤ counts'.count f g

variable {counts counts' : Counts}

theorem AtMost.refl (counts : Counts) : counts.AtMost counts := ⟨id, fun _ _ => le_refl _⟩

theorem Nonneg.of_atMost (h : counts.Nonneg) (hle : counts.AtMost counts') : counts'.Nonneg :=
  fun f g => (h f g).trans (hle.count_le f g)

theorem atMost_bump (h : counts.bump function name = .ok counts') : counts.AtMost counts' where
  mentions hf := (mentions_bump h _ _).mpr (.inl hf)
  count_le f g := by
    rw [count, count, of_bump h]
    split
    · rw [amount_bump]
      split <;> omega
    · exact le_refl _

theorem Distinct.bump (hcounts : counts.Distinct) (h : counts.bump function name = .ok counts') :
    counts'.Distinct := by
  intro f
  rw [of_bump h]
  split
  · exact nodup_names_set (hcounts f) _ _
  · exact hcounts f

end Counts

structure IsCallPath (calls : Counts) (f : Name) (p : List Name) : Prop where
  head : p.head? = some f
  nodup : p.Nodup
  chain : p.IsChain calls.Mentions

def pathDemand (allocs calls : Counts) (cls : Name) : List Name → Int
  | [] => 0
  | [f] => allocs.count f cls
  | f :: g :: p => calls.count f g * pathDemand allocs calls cls (g :: p)

def AvoidingPath (calls : Counts) (visited : List Name) (f : Name) (p : List Name) : Prop :=
  IsCallPath calls f p ∧ ∀ x ∈ p, x ∉ visited

theorem avoidingPath_iff (hf : f ∉ visited) : AvoidingPath calls visited f p ↔
    p = [f] ∨ ∃ g, calls.Mentions f g ∧ ∃ q, AvoidingPath calls (f :: visited) g q ∧ f :: q = p := by
  constructor
  · rintro ⟨⟨hhead, hnodup, hchain⟩, havoids⟩
    obtain ⟨q, rfl⟩ := head?_eq_some_iff.mp hhead
    cases q with
    | nil => exact .inl rfl
    | cons g q =>
      obtain ⟨hcall, hchain⟩ := isChain_cons_cons.mp hchain
      obtain ⟨hnew, hnodup⟩ := nodup_cons.mp hnodup
      refine .inr ⟨g, hcall, g :: q, ⟨⟨rfl, hnodup, hchain⟩, fun x hx => ?_⟩, rfl⟩
      exact not_mem_cons_of_ne_of_not_mem (fun h => hnew (h ▸ hx)) (havoids x (.tail _ hx))
  · rintro (rfl | ⟨g, hcall, q, ⟨⟨hhead, hnodup, hchain⟩, havoids⟩, rfl⟩)
    · exact ⟨⟨rfl, nodup_singleton f, .singleton f⟩, by simpa using hf⟩
    · obtain ⟨q, rfl⟩ := head?_eq_some_iff.mp hhead
      refine ⟨⟨rfl, nodup_cons.mpr ⟨fun hmem => havoids f hmem (.head _), hnodup⟩,
        isChain_cons_cons.mpr ⟨hcall, hchain⟩⟩, fun x hx => ?_⟩
      cases hx with
      | head => exact hf
      | tail _ hx => exact fun hmem => havoids x hx (.tail _ hmem)

theorem nodup_allocationsAvoiding (fuel : Nat) (visited : List Name) (f : Name) :
    (allocationsAvoiding allocs calls fuel visited f).names.Nodup := by
  cases fuel with
  | zero => exact nodup_nil
  | succ fuel =>
    rw [allocationsAvoiding]
    split
    · exact nodup_nil
    · refine foldlRecOn (motive := fun t : Table Name Int => t.names.Nodup) _ _
        (nodup_addScaled (t := {}) nodup_nil _ _) fun t ht e _ => ?_
      exact nodup_addScaled ht _ _

theorem amount_allocationsAvoiding (hallocs : allocs.Distinct) (hcalls : calls.Distinct)
    (hf : f ∉ visited) (cls : Name) :
    amount (allocationsAvoiding allocs calls (fuel + 1) visited f) cls = allocs.count f cls +
      ∑ g ∈ (calls.of f).names.toFinset, calls.count f g *
        amount (allocationsAvoiding allocs calls fuel (f :: visited) g) cls := by
  have hfold : ∀ (entries : List (Name × Int)) (t : Table Name Int),
      amount (entries.foldl (fun total e => addScaled total e.2
        (allocationsAvoiding allocs calls fuel (f :: visited) e.1)) t) cls = amount t cls +
        (entries.map fun e => e.2 * amount (allocationsAvoiding allocs calls fuel (f :: visited) e.1) cls).sum := by
    intro entries
    induction entries with
    | nil => simp
    | cons e entries ih =>
      intro t
      rw [foldl_cons, ih, amount_addScaled (nodup_allocationsAvoiding _ _ _), map_cons,
        sum_cons, add_assoc]
  have hown : amount (addScaled {} 1 (allocs.of f)) cls = allocs.count f cls := by
    rw [amount_addScaled (hallocs f), amount_empty, zero_add, one_mul, Counts.count]
  have hcount : (calls.of f).entries.map (fun e => e.2 *
      amount (allocationsAvoiding allocs calls fuel (f :: visited) e.1) cls) =
      (calls.of f).names.map fun g => calls.count f g *
        amount (allocationsAvoiding allocs calls fuel (f :: visited) g) cls := by
    rw [names, List.map_map]
    refine map_congr_left fun e he => ?_
    rw [Function.comp, Counts.count, amount_of_mem (hcalls f) he]
  rw [allocationsAvoiding, if_neg (by simpa using hf), sum_toFinset _ (hcalls f), ← hcount, ← hown]
  exact hfold _ _

theorem allocationsAvoiding_of_mem (hf : f ∈ visited) :
    allocationsAvoiding allocs calls fuel visited f = {} := by
  cases fuel with
  | zero => rfl
  | succ fuel => rw [allocationsAvoiding, if_pos (by simpa using hf)]

theorem allocationsAvoiding_eq (h : (unvisited calls visited).card < fuel)
    (h' : (unvisited calls visited).card < fuel') :
    allocationsAvoiding allocs calls fuel visited f = allocationsAvoiding allocs calls fuel' visited f := by
  induction fuel generalizing fuel' visited f with
  | zero => omega
  | succ fuel ih =>
    obtain ⟨fuel', rfl⟩ := Nat.exists_eq_succ_of_ne_zero (Nat.ne_zero_of_lt h')
    rw [allocationsAvoiding, allocationsAvoiding]
    split
    · rfl
    · next hf =>
      refine foldl_ext _ _ _ fun t e he => ?_
      have hlt := card_unvisited_lt (by simpa using hf) (mem_map_of_mem he : calls.Mentions f e.1)
      exact congrArg (addScaled t e.2) (ih (by omega) (by omega))

theorem exists_paths (hallocs : allocs.Distinct) (hcalls : calls.Distinct)
    (h : (unvisited calls visited).card < fuel) :
    ∃ paths : Finset (List Name), (∀ p, p ∈ paths ↔ AvoidingPath calls visited f p) ∧
      ∀ cls, amount (allocationsAvoiding allocs calls fuel visited f) cls =
        ∑ p ∈ paths, pathDemand allocs calls cls p := by
  induction fuel generalizing visited f with
  | zero => omega
  | succ fuel ih =>
    by_cases hf : f ∈ visited
    · refine ⟨∅, fun p => ⟨fun hp => absurd hp (Finset.notMem_empty p), fun ⟨hp, havoids⟩ => ?_⟩, fun cls => ?_⟩
      · exact absurd hf (havoids f (mem_of_head? hp.head))
      · rw [allocationsAvoiding_of_mem hf, Finset.sum_empty, amount_empty]
    · have hbelow : ∀ g, ∃ paths : Finset (List Name), calls.Mentions f g →
          (∀ p, p ∈ paths ↔ AvoidingPath calls (f :: visited) g p) ∧
          ∀ cls, amount (allocationsAvoiding allocs calls fuel (f :: visited) g) cls =
            ∑ p ∈ paths, pathDemand allocs calls cls p := by
        intro g
        by_cases hcall : calls.Mentions f g
        · have hlt := card_unvisited_lt hf hcall
          have hfuel : (unvisited calls (f :: visited)).card < fuel := by omega
          obtain ⟨paths, hpaths⟩ := ih (f := g) hfuel
          exact ⟨paths, fun _ => hpaths⟩
        · exact ⟨∅, fun h => absurd h hcall⟩
      choose paths hpaths using hbelow
      let longer := (calls.of f).names.toFinset.biUnion fun g => (paths g).image (f :: ·)
      have hlonger : ∀ p, p ∈ longer ↔
          ∃ g, calls.Mentions f g ∧ ∃ q, AvoidingPath calls (f :: visited) g q ∧ f :: q = p := by
        intro p
        simp only [longer, Finset.mem_biUnion, mem_toFinset, Finset.mem_image]
        refine exists_congr fun g => and_congr_right fun hcall => exists_congr fun q => ?_
        rw [(hpaths g hcall).1]
      have hshort : [f] ∉ longer := by
        intro hmem
        obtain ⟨g, -, q, hq, heq⟩ := (hlonger _).mp hmem
        cases heq
        cases hq.1.head
      refine ⟨insert [f] longer, fun p => ?_, fun cls => ?_⟩
      · rw [Finset.mem_insert, hlonger, avoidingPath_iff hf]
      · rw [Finset.sum_insert hshort, amount_allocationsAvoiding hallocs hcalls hf, pathDemand,
          Finset.sum_biUnion]
        · -- Each callee contributes the paths that go on through it.
          congr 1
          refine Finset.sum_congr rfl fun g hg => ?_
          have hg := hpaths g (mem_toFinset.mp hg)
          rw [Finset.sum_image fun _ _ _ _ h => (cons.inj h).2, hg.2, Finset.mul_sum]
          refine Finset.sum_congr rfl fun q hq => ?_
          obtain ⟨q, rfl⟩ := head?_eq_some_iff.mp ((hg.1 q).mp hq).1.head
          rw [pathDemand]
        · intro g hg g' hg' hne
          refine Finset.disjoint_left.mpr fun p hp hp' => hne ?_
          obtain ⟨q, hq, rfl⟩ := Finset.mem_image.mp hp
          obtain ⟨q', hq', heq⟩ := Finset.mem_image.mp hp'
          cases heq
          have hhead := (((hpaths g (mem_toFinset.mp hg)).1 q).mp hq).1.head
          have hhead' := (((hpaths g' (mem_toFinset.mp hg')).1 q).mp hq').1.head
          exact Option.some.inj (hhead.symm.trans hhead')

theorem card_unvisited_le (calls : Counts) (visited : List Name) :
    (unvisited calls visited).card ≤ calls.entries.length := by
  rw [← length_names]
  exact (Finset.card_filter_le _ _).trans (toFinset_card_le _)

theorem paths_of_effectiveAllocations (hallocs : allocs.Distinct) (hcalls : calls.Distinct) (f : Name) :
    ∃ paths : Finset (List Name), (∀ p, p ∈ paths ↔ IsCallPath calls f p) ∧
      ∀ cls, amount (effectiveAllocations allocs calls f) cls =
        ∑ p ∈ paths, pathDemand allocs calls cls p := by
  have hfuel : (unvisited calls []).card < calls.entries.length + 2 :=
    Nat.lt_add_right 1 (Nat.lt_succ_of_le (card_unvisited_le calls []))
  obtain ⟨paths, hpaths, hsum⟩ := exists_paths (f := f) hallocs hcalls hfuel
  exact ⟨paths, fun p => (hpaths p).trans (and_iff_left fun _ _ => not_mem_nil), hsum⟩

def AcyclicFrom (calls : Counts) (f : Name) : Prop :=
  ∀ g, ReflTransGen calls.Mentions f g → ¬ TransGen calls.Mentions g g

theorem IsCallPath.reaches (h : IsCallPath calls f p) (hg : g ∈ p) : ReflTransGen calls.Mentions f g := by
  obtain ⟨p, rfl⟩ := head?_eq_some_iff.mp h.head
  cases hg with
  | head => exact .refl
  | tail _ hg => exact (h.chain.imp fun _ _ => ReflTransGen.single).rel_cons hg

theorem amount_of_uncalled (hallocs : allocs.Distinct) (hcalls : calls.Distinct)
    (hf : ¬ ReflTransGen calls.Mentions g f) (cls : Name) :
    amount (allocationsAvoiding allocs calls (calls.entries.length + 1) [f] g) cls =
      amount (effectiveAllocations allocs calls g) cls := by
  have hfuel := Nat.lt_succ_of_le (card_unvisited_le calls [f])
  obtain ⟨paths, hpaths, hsum⟩ := exists_paths (f := g) hallocs hcalls hfuel
  obtain ⟨paths', hpaths', hsum'⟩ := paths_of_effectiveAllocations hallocs hcalls g
  have hsame : paths = paths' := by
    ext p
    rw [hpaths, hpaths']
    refine and_iff_left_of_imp fun hp x hx hvisited => hf ?_
    exact mem_singleton.mp hvisited ▸ hp.reaches hx
  rw [hsum, hsum', hsame]

theorem amount_effectiveAllocations (hallocs : allocs.Distinct) (hcalls : calls.Distinct)
    (hacyclic : AcyclicFrom calls f) (cls : Name) :
    amount (effectiveAllocations allocs calls f) cls = allocs.count f cls +
      ∑ g ∈ (calls.of f).names.toFinset, calls.count f g * amount (effectiveAllocations allocs calls g) cls := by
  rw [effectiveAllocations, amount_allocationsAvoiding hallocs hcalls not_mem_nil]
  congr 1
  refine Finset.sum_congr rfl fun g hg => ?_
  have hcall : calls.Mentions f g := mem_toFinset.mp hg
  rw [amount_of_uncalled hallocs hcalls fun hback => hacyclic f .refl (.head' hcall hback)]

theorem pathDemand_nonneg (hallocs : allocs.Nonneg) (hcalls : calls.Nonneg) (p : List Name) :
    0 ≤ pathDemand allocs calls cls p := by
  induction p using pathDemand.induct with
  | case1 => exact le_refl _
  | case2 f => exact hallocs f cls
  | case3 f g p ih => exact mul_nonneg (hcalls f g) ih

theorem pathDemand_mono (hallocs : allocs.Nonneg) (hcalls : calls.Nonneg) (hallocs' : allocs.AtMost allocs')
    (hcalls' : calls.AtMost calls') (p : List Name) :
    pathDemand allocs calls cls p ≤ pathDemand allocs' calls' cls p := by
  induction p using pathDemand.induct with
  | case1 => exact le_refl _
  | case2 f => exact hallocs'.count_le f cls
  | case3 f g p ih =>
    exact mul_le_mul (hcalls'.count_le f g) ih (pathDemand_nonneg hallocs hcalls _)
      ((hcalls.of_atMost hcalls') f g)

theorem amount_mono (hdistinct : allocs.Distinct) (hdistinct' : calls.Distinct) (hmore : allocs'.Distinct)
    (hmore' : calls'.Distinct) (hallocs : allocs.Nonneg) (hcalls : calls.Nonneg)
    (hallocs' : allocs.AtMost allocs') (hcalls' : calls.AtMost calls') (f cls : Name) :
    amount (effectiveAllocations allocs calls f) cls ≤ amount (effectiveAllocations allocs' calls' f) cls := by
  obtain ⟨paths, hpaths, hsum⟩ := paths_of_effectiveAllocations hdistinct hdistinct' f
  obtain ⟨paths', hpaths', hsum'⟩ := paths_of_effectiveAllocations hmore hmore' f
  have hsub : paths ⊆ paths' := by
    intro p hp
    obtain ⟨hhead, hnodup, hchain⟩ := (hpaths p).mp hp
    exact (hpaths' p).mpr ⟨hhead, hnodup, hchain.imp fun _ _ => hcalls'.mentions⟩
  rw [hsum, hsum']
  calc ∑ p ∈ paths, pathDemand allocs calls cls p
      ≤ ∑ p ∈ paths, pathDemand allocs' calls' cls p :=
        Finset.sum_le_sum fun p _ => pathDemand_mono hallocs hcalls hallocs' hcalls' p
    _ ≤ ∑ p ∈ paths', pathDemand allocs' calls' cls p :=
        Finset.sum_le_sum_of_subset_of_nonneg hsub fun p _ _ =>
          pathDemand_nonneg (hallocs.of_atMost hallocs') (hcalls.of_atMost hcalls') p

/-- The recursion ends, and its result is a sum over all call paths that repeat no function. Where no
recursion is reached it adds up over the callees, and another allocation or another call lowers no
count. -/
theorem allocations_sum_over_paths (hallocs : allocs.Distinct) (hcalls : calls.Distinct) (f cls : Name) :
    (∀ fuel, calls.entries.length < fuel →
      allocationsAvoiding allocs calls fuel [] f = effectiveAllocations allocs calls f) ∧
    (∃ paths : Finset (List Name), (∀ p, p ∈ paths ↔ IsCallPath calls f p) ∧
      amount (effectiveAllocations allocs calls f) cls = ∑ p ∈ paths, pathDemand allocs calls cls p) ∧
    (AcyclicFrom calls f → amount (effectiveAllocations allocs calls f) cls = allocs.count f cls +
      ∑ g ∈ (calls.of f).names.toFinset, calls.count f g * amount (effectiveAllocations allocs calls g) cls) ∧
    (allocs.Nonneg → calls.Nonneg →
      (∀ g made allocs', allocs.bump g made = .ok allocs' →
        amount (effectiveAllocations allocs calls f) cls ≤ amount (effectiveAllocations allocs' calls f) cls) ∧
      ∀ g callee calls', calls.bump g callee = .ok calls' →
        amount (effectiveAllocations allocs calls f) cls ≤
          amount (effectiveAllocations allocs calls' f) cls) := by
  have hcard := card_unvisited_le calls []
  refine ⟨fun fuel hfuel => allocationsAvoiding_eq (by omega) (by omega), ?_,
    fun hacyclic => amount_effectiveAllocations hallocs hcalls hacyclic cls, fun hnonneg hnonneg' => ⟨?_, ?_⟩⟩
  · obtain ⟨paths, hpaths, hsum⟩ := paths_of_effectiveAllocations hallocs hcalls f
    exact ⟨paths, hpaths, hsum cls⟩
  · intro g made allocs' h
    exact amount_mono hallocs hcalls (hallocs.bump h) hcalls hnonneg hnonneg' (Counts.atMost_bump h)
      (.refl calls) f cls
  · intro g callee calls' h
    exact amount_mono hallocs hcalls hallocs (hcalls.bump h) hnonneg hnonneg' (.refl allocs)
      (Counts.atMost_bump h) f cls

/-- `main` calls `set` twice and `get` once, `set` calls `get`. -/
def diamondCalls : Counts := ⟨[("main", ⟨[("set", 2), ("get", 1)]⟩), ("set", ⟨[("get", 1)]⟩)]⟩

def diamondAllocs : Counts := ⟨[("get", ⟨[("Led", 3)]⟩), ("main", ⟨[("Led", 1)]⟩)]⟩

theorem Counts.distinct_of_entries {counts : Counts} (h : ∀ e ∈ counts.entries, e.2.names.Nodup) :
    counts.Distinct := by
  intro f
  rw [Counts.of]
  cases hfind : counts.find? f with
  | none => exact nodup_nil
  | some t => exact h _ (mem_of_find? hfind)

theorem acyclicFrom_diamond (f : Name) : AcyclicFrom diamondCalls f := by
  let rank (x : Name) : Nat := if x = "main" then 2 else if x = "set" then 1 else 0
  have hstep : ∀ x y, diamondCalls.Mentions x y → rank y < rank x := by
    intro x y h
    have hx := mem_names_of_mentions h
    have hcases : x = "main" ∨ x = "set" := by simpa [diamondCalls, names] using hx
    rcases hcases with rfl | rfl
    · have hy : y ∈ ([.text "set", .text "get"] : List Name) := h
      simp only [mem_cons, not_mem_nil, or_false] at hy
      rcases hy with rfl | rfl <;> decide
    · cases mem_singleton.mp (show y ∈ [Json.text "get"] from h)
      decide
  have hpath : ∀ x y, TransGen diamondCalls.Mentions x y → rank y < rank x := by
    intro x y h
    induction h with
    | single h => exact hstep _ _ h
    | tail _ h ih => exact (hstep _ _ h).trans ih
  exact fun g _ h => lt_irrefl _ (hpath g g h)

theorem diamond_sums_over_paths :
    amount (effectiveAllocations diamondAllocs diamondCalls "main") "Led" = 10 ∧
      (∃ paths : Finset (List Name), (∀ p, p ∈ paths ↔ IsCallPath diamondCalls "main" p) ∧
        10 = ∑ p ∈ paths, pathDemand diamondAllocs diamondCalls "Led" p) ∧
      10 = diamondAllocs.count "main" "Led" + ∑ g ∈ (diamondCalls.of "main").names.toFinset,
        diamondCalls.count "main" g * amount (effectiveAllocations diamondAllocs diamondCalls g) "Led" := by
  have hamount : amount (effectiveAllocations diamondAllocs diamondCalls "main") "Led" = 10 := by decide +kernel
  have hallocs : diamondAllocs.Distinct := Counts.distinct_of_entries (by decide)
  have hcalls : diamondCalls.Distinct := Counts.distinct_of_entries (by decide)
  obtain ⟨-, hpaths, hcallees, -⟩ := allocations_sum_over_paths hallocs hcalls "main" "Led"
  rw [hamount] at hpaths hcallees
  exact ⟨hamount, hpaths, hcallees (acyclicFrom_diamond _)⟩

end ObjcLowering.Pools
