import Mathlib.Data.Finset.Card
import Mathlib.Logic.Relation
import ObjcLowering.Pools.Demand
import ObjcLowering.Proofs.Pools.CallGraph

/-! Which classes get a count. -/

namespace ObjcLowering.Pools

open Relation

structure Tallies (t : Table Name Int) (P : Name → Prop) : Prop where
  positive : AllPositive t
  names : ∀ cls, cls ∈ t.names ↔ P cls

namespace Tallies

theorem empty : Tallies {} fun _ => False where
  positive e he := by cases he
  names cls := by simp [Table.names]

theorem congr (h : Tallies t P) (hiff : ∀ cls, P cls ↔ Q cls) : Tallies t Q :=
  ⟨h.positive, fun cls => (h.names cls).trans (hiff cls)⟩

theorem of (counts : Counts) (h : counts.Positive) (f : Name) :
    Tallies (counts.of f) (counts.Mentions f) := ⟨h f, fun _ => Iff.rfl⟩

theorem exists_find? (h : Tallies t P) : (∃ n, t.find? cls = some n ∧ 1 ≤ n) ↔ P cls := by
  rw [← h.names, ← Table.has_iff_mem_names, Table.has, Option.isSome_iff_exists]
  refine exists_congr fun n => and_iff_left_of_imp fun hn => ?_
  have := h.positive.find? hn
  omega

theorem isEmpty_iff (h : Tallies t P) : t.isEmpty = true ↔ ∀ cls, ¬ P cls := by
  simp only [← h.names, Table.names, Table.isEmpty, List.isEmpty_iff]
  cases t.entries with
  | nil => simp
  | cons e es =>
    simp only [reduceCtorEq, false_iff, not_forall, not_not]
    exact ⟨e.1, by simp⟩

theorem foldl_entries (henter : ∀ t e, AllPositive t → 0 < e.2 →
      AllPositive (enter t e) ∧ ∀ cls, cls ∈ (enter t e).names ↔ cls ∈ t.names ∨ cls = e.1)
    (h : Tallies t P) (hextra : Tallies extra Q) :
    Tallies (extra.entries.foldl enter t) fun cls => P cls ∨ Q cls := by
  obtain ⟨entries⟩ := extra
  induction entries generalizing t P Q with
  | nil => exact h.congr fun cls => by simp [← hextra.names, Table.names]
  | cons e entries ih =>
    obtain ⟨hpositive, hnames⟩ := henter t e h.positive (hextra.positive e (.head _))
    have hstep : Tallies (enter t e) fun cls => P cls ∨ cls = e.1 :=
      ⟨hpositive, fun cls => by rw [hnames, h.names]⟩
    have hrest : Tallies (⟨entries⟩ : Table Name Int) fun cls => cls ∈ entries.map (·.1) :=
      ⟨fun e he => hextra.positive e (.tail _ he), fun _ => Iff.rfl⟩
    refine (ih hstep hrest).congr fun cls => ?_
    rw [← hextra.names, Table.names, List.map_cons, List.mem_cons, or_assoc]

theorem addScaled (h : Tallies t P) (hfactor : 0 < factor) (hextra : Tallies extra Q) :
    Tallies (addScaled t factor extra) fun cls => P cls ∨ Q cls :=
  foldl_entries (fun _ e ht he => ⟨ht.bump e.1 (Int.mul_pos he hfactor), fun _ => mem_names_bump⟩)
    h hextra

theorem raise (h : Tallies t P) (hextra : Tallies extra Q) :
    Tallies (raise t extra) fun cls => P cls ∨ Q cls := by
  refine foldl_entries (fun t e ht he => ⟨fun e' he' => ?_, fun _ => Table.mem_names_set⟩) h hextra
  rcases Table.eq_or_mem_of_mem_set he' with rfl | he'
  · exact lt_max_of_lt_left he
  · exact ht e' he'

theorem foldl {xs : List α} {R : α → Name → Prop} (h : Tallies t P)
    (hgather : ∀ x ∈ xs, ∀ t P, Tallies t P → Tallies (gather t x) fun cls => P cls ∨ R x cls) :
    Tallies (xs.foldl gather t) fun cls => P cls ∨ ∃ x ∈ xs, R x cls := by
  induction xs generalizing t P with
  | nil => exact h.congr fun cls => by simp
  | cons x xs ih =>
    have hstep := ih (hgather x (.head _) t P h) fun y hy => hgather y (.tail _ hy)
    exact hstep.congr fun cls => by simp [or_assoc]

end Tallies

variable {allocs calls : Counts}

/-- Some path of calls leads from a function to one that allocates objects of a class. -/
def Needs (allocs calls : Counts) (f cls : Name) : Prop :=
  ∃ g, ReflTransGen calls.Mentions f g ∧ allocs.Mentions g cls

inductive NeedsWithin (allocs calls : Counts) : (fuel : Nat) → (visited : List Name) → Name → Name → Prop
  | here : f ∉ visited → allocs.Mentions f cls →
      NeedsWithin allocs calls (fuel + 1) visited f cls
  | call : f ∉ visited → calls.Mentions f g →
      NeedsWithin allocs calls fuel (f :: visited) g cls →
      NeedsWithin allocs calls (fuel + 1) visited f cls

theorem tallies_allocationsAvoiding (hallocs : allocs.Positive) (hcalls : calls.Positive) (fuel : Nat)
    (visited : List Name) (f : Name) :
    Tallies (allocationsAvoiding allocs calls fuel visited f) (NeedsWithin allocs calls fuel visited f) := by
  induction fuel generalizing visited f with
  | zero => exact Tallies.empty.congr fun cls => ⟨False.elim, fun h => by cases h⟩
  | succ fuel ih =>
    rw [allocationsAvoiding]
    split
    · next hvisited =>
      rw [List.contains_iff_mem] at hvisited
      refine Tallies.empty.congr fun cls => ⟨False.elim, fun h => ?_⟩
      cases h with
      | here hnot => exact hnot hvisited
      | call hnot => exact hnot hvisited
    · next hvisited =>
      rw [List.contains_iff_mem] at hvisited
      have hown := Tallies.empty.addScaled Int.one_pos (.of allocs hallocs f)
      refine (hown.foldl fun e he t P ht =>
        ht.addScaled (hcalls f e he) (ih (f :: visited) e.1)).congr fun cls => ?_
      rw [false_or]
      constructor
      · rintro (hmade | ⟨e, he, hneeds⟩)
        · exact .here hvisited hmade
        · exact .call hvisited (List.mem_map_of_mem he) hneeds
      · intro hneeds
        cases hneeds with
        | here _ hmade => exact .inl hmade
        | call _ hcall hneeds =>
          obtain ⟨e, he, rfl⟩ := List.mem_map.mp hcall
          exact .inr ⟨e, he, hneeds⟩

theorem NeedsWithin.needs (h : NeedsWithin allocs calls fuel visited f cls) : Needs allocs calls f cls := by
  induction h with
  | here _ hmade => exact ⟨_, .refl, hmade⟩
  | call _ hcall _ ih =>
    obtain ⟨g, hpath, hmade⟩ := ih
    exact ⟨g, .head hcall hpath, hmade⟩

theorem eq_or_exists_leaving (h : ReflTransGen r a b) :
    b = a ∨ ∃ c, (r a c ∧ c ≠ a) ∧ ReflTransGen (fun x y => r x y ∧ y ≠ a) c b := by
  induction h with
  | refl => exact .inl rfl
  | tail _ hstep ih =>
    rename_i b c _
    by_cases hc : c = a
    · exact .inl hc
    · rcases ih with rfl | ⟨d, hd, hpath⟩
      · exact .inr ⟨c, ⟨hstep, hc⟩, .refl⟩
      · exact .inr ⟨d, hd, hpath.tail ⟨hstep, hc⟩⟩

theorem mem_names_of_mentions (h : calls.Mentions f g) : f ∈ calls.names := by
  by_contra hf
  rw [Counts.Mentions, Counts.of, Table.find?_eq_none_iff.mpr hf] at h
  cases h

def unvisited (calls : Counts) (visited : List Name) : Finset Name :=
  calls.names.toFinset.filter (· ∉ visited)

theorem card_unvisited_lt (hf : f ∉ visited) (hcall : calls.Mentions f g) :
    (unvisited calls (f :: visited)).card < (unvisited calls visited).card := by
  refine Finset.card_lt_card (Finset.ssubset_iff_of_subset ?_ |>.mpr ⟨f, ?_, ?_⟩)
  · intro x hx
    simp only [unvisited, Finset.mem_filter, List.mem_cons, not_or] at hx ⊢
    exact ⟨hx.1, hx.2.2⟩
  · simp [unvisited, hf, mem_names_of_mentions hcall]
  · simp [unvisited]

theorem needsWithin_of_path (hfuel : (unvisited calls visited).card < fuel) (hf : f ∉ visited)
    (hpath : ReflTransGen (fun x y => calls.Mentions x y ∧ y ∉ visited) f g)
    (hmade : allocs.Mentions g cls) : NeedsWithin allocs calls fuel visited f cls := by
  induction fuel generalizing visited f with
  | zero => omega
  | succ fuel ih =>
    rcases eq_or_exists_leaving hpath with rfl | ⟨c, ⟨⟨hcall, hc⟩, hne⟩, hrest⟩
    · exact .here hf hmade
    · have hlt := card_unvisited_lt hf hcall
      have hrest : ReflTransGen (fun x y => calls.Mentions x y ∧ y ∉ f :: visited) c g :=
        ReflTransGen.mono (fun x y h => ⟨h.1.1, by simp [h.1.2, h.2]⟩) _ _ hrest
      exact .call hf hcall (ih (by omega) (by simp [hc, hne]) hrest)

theorem needsWithin_iff :
    NeedsWithin allocs calls (calls.entries.length + 2) [] f cls ↔ Needs allocs calls f cls := by
  refine ⟨NeedsWithin.needs, ?_⟩
  rintro ⟨g, hpath, hmade⟩
  have hcard : (unvisited calls []).card ≤ calls.entries.length := by
    rw [← Table.length_names]
    exact (Finset.card_filter_le _ _).trans (List.toFinset_card_le _)
  have hpath : ReflTransGen (fun x y => calls.Mentions x y ∧ y ∉ []) f g := by simpa using hpath
  exact needsWithin_of_path (by omega) List.not_mem_nil hpath hmade

theorem tallies_effectiveAllocations (hallocs : allocs.Positive) (hcalls : calls.Positive) (f : Name) :
    Tallies (effectiveAllocations allocs calls f) (Needs allocs calls f) :=
  (tallies_allocationsAvoiding hallocs hcalls _ [] f).congr fun _ => needsWithin_iff

theorem Tallies.filterM {p : Name → Except Fault Bool} (ht : Tallies t P)
    (h : t.entries.filterM (fun e => p e.1) = .ok entries) :
    Tallies ⟨entries⟩ fun cls => p cls = .ok true ∧ P cls where
  positive e he := ht.positive e ((mem_filterM h).mp he).1
  names cls := by
    rw [← ht.names, Table.mem_names, Table.mem_names, ← exists_and_left]
    exact exists_congr fun n => (mem_filterM h).trans and_comm

def IsEntry (threads : List Name) (f : Name) : Prop := f = .text "main" ∨ f ∈ threads

theorem tallies_entries (hallocs : allocs.Positive) (hcalls : calls.Positive) (threads : List Name) :
    Tallies ((.text "main" :: distinct threads).foldl
      (fun total f => addScaled total 1 (effectiveAllocations allocs calls f)) {})
      fun cls => ∃ f, IsEntry threads f ∧ Needs allocs calls f cls := by
  refine (Tallies.empty.foldl fun f _ t P ht =>
    ht.addScaled Int.one_pos (tallies_effectiveAllocations hallocs hcalls f)).congr fun cls => ?_
  simp only [false_or, List.mem_cons, mem_distinct, IsEntry]

theorem poolCounts_of_needed (hallocs : allocs.Positive) (hcalls : calls.Positive)
    (h : ∃ f cls, IsEntry threads f ∧ Needs allocs calls f cls) :
    ∃ counts, poolCounts allocs calls threads = .ok counts ∧
      Tallies counts fun cls => ∃ f, IsEntry threads f ∧ Needs allocs calls f cls := by
  have hentries := tallies_entries hallocs hcalls threads
  refine ⟨_, ?_, hentries⟩
  obtain ⟨f, cls, hf, hneeds⟩ := h
  rw [poolCounts, if_neg]
  · rfl
  · exact fun hempty => hentries.isEmpty_iff.mp hempty cls ⟨f, hf, hneeds⟩

theorem tallies_poolCounts_of_unneeded (hallocs : allocs.Positive) (hcalls : calls.Positive)
    (hnone : ¬ ∃ f cls, IsEntry threads f ∧ Needs allocs calls f cls)
    (h : poolCounts allocs calls threads = .ok counts) :
    Tallies counts fun cls => isPoolName cls = .ok true ∧ ∃ g, allocs.Mentions g cls := by
  have hentries := tallies_entries hallocs hcalls threads
  have hempty := hentries.isEmpty_iff.mpr fun cls hcls => hnone (hcls.imp fun f hf => ⟨cls, hf⟩)
  have hall : Tallies (allocs.names.foldl
      (fun total f => raise total (effectiveAllocations allocs calls f)) {})
      fun cls => ∃ f ∈ allocs.names, Needs allocs calls f cls :=
    (Tallies.empty.foldl fun f _ t P ht =>
      ht.raise (tallies_effectiveAllocations hallocs hcalls f)).congr fun _ => by rw [false_or]
  rw [poolCounts, if_pos hempty] at h
  obtain ⟨entries, hentries, h⟩ := bind_eq_ok.mp h
  cases h
  refine (hall.filterM hentries).congr fun cls => and_congr_right fun _ => ?_
  constructor
  · rintro ⟨f, -, g, -, hmade⟩
    exact ⟨g, hmade⟩
  · rintro ⟨g, hmade⟩
    exact ⟨g, mem_names_of_mentions hmade, g, .refl, hmade⟩

end ObjcLowering.Pools
