import ObjcLowering.Proofs.Lowering.Pieces

/-! Braces around pieces. -/

namespace ObjcLowering.Lowering

open Ast Code Behavior Standing List Json

variable {s s₁ s' : State} {x : Exit} {names : List Name}

/-- The variables in scope and the names that are still to be declared are distinct texts; locks are
numbered in order. -/
structure Tidy (s : State) (names : List Name) : Prop where
  kept : s.consumed = []
  texts : ∀ name ∈ s.scopes.flatten ++ names, name.isText = true
  distinct : (s.scopes.flatten ++ names).Nodup
  locks : ∀ k, text (lockName k) ∈ s.scopes.flatten ++ names → k ≤ s.locks
  loops : ∀ outside ∈ s.loops, outside ≤ s.scopes.length

namespace Tidy

theorem sub (h : Tidy s names) (hsub : names'.Sublist names) : Tidy s names' := by
  have hall : (s.scopes.flatten ++ names').Sublist (s.scopes.flatten ++ names) :=
    (Sublist.refl _).append hsub
  exact ⟨h.kept, fun name hname => h.texts name (hall.subset hname), h.distinct.sublist hall,
    fun k hk => h.locks k (hall.subset hk), h.loops⟩

theorem of_scopes (h : Tidy s names) (hconsumed : u.consumed = s.consumed)
    (hscopes : u.scopes.flatten = s.scopes.flatten) (hlocks : s.locks ≤ u.locks)
    (hloops : ∀ outside ∈ u.loops, outside ≤ u.scopes.length) : Tidy u names := by
  refine ⟨hconsumed.trans h.kept, ?_, ?_, ?_, hloops⟩
  all_goals rw [hscopes]
  · exact h.texts
  · exact h.distinct
  · exact fun k hk => (h.locks k hk).trans hlocks

theorem congr (h : Tidy s names) (hs : ownershipFrame.rel s s') : Tidy s' names := by
  obtain ⟨⟨hscopes, hloops, hlocks⟩, hconsumed⟩ := hs
  refine h.of_scopes hconsumed (by rw [hscopes]) (Nat.le_of_eq hlocks.symm) ?_
  rw [hscopes, hloops]
  exact h.loops

theorem grow (h : Tidy s (names' ++ names)) (hsub : a.Sublist names')
    (hpiece : Piece W nodes env a s c s') : Tidy s' names := by
  obtain ⟨l, hperm, hl⟩ : ∃ l, (s'.scopes.flatten ++ names).Perm l ∧
      l.Sublist (s.scopes.flatten ++ (names' ++ names)) := by
    rw [hpiece.scopes]
    cases s.scopes with
    | nil => exact ⟨names, .refl _, sublist_append_right _ _⟩
    | cons top rest =>
      refine ⟨top ++ rest.flatten ++ (a ++ names), ?_, ?_⟩
      · simp only [growScopes, flatten_cons, append_assoc]
        apply Perm.append_left
        rw [← append_assoc, ← append_assoc]
        exact perm_append_comm.append_right names
      · simp only [flatten_cons, append_assoc]
        exact (Sublist.refl _).append
          ((Sublist.refl _).append (hsub.append (Sublist.refl _)))
  have hmem : ∀ name ∈ s'.scopes.flatten ++ names,
      name ∈ s.scopes.flatten ++ (names' ++ names) :=
    fun name hname => hl.subset (hperm.mem_iff.mp hname)
  constructor
  · rw [hpiece.consumed, h.kept]
  · exact fun name hname => h.texts name (hmem name hname)
  · exact hperm.nodup_iff.mpr (h.distinct.sublist hl)
  · exact fun k hk => Nat.le_trans (h.locks k (hmem _ hk)) hpiece.locks
  · rw [hpiece.loops, hpiece.scopes]
    cases hscopes : s.scopes <;> simpa [growScopes, hscopes] using h.loops

end Tidy

theorem pathsAll_releases {root : String} (h : pathsAll (releases depth root names) t o x) :
    t = (names.map plain).map .release ∧ o = [] ∧ x = .next := by
  induction names generalizing t o x with
  | nil =>
    cases h
    exact ⟨rfl, rfl, rfl⟩
  | cons name names ih =>
    cases h with
    | both hname hnames =>
      cases hname
      obtain ⟨rfl, rfl, rfl⟩ := ih hnames
      exact ⟨rfl, rfl, rfl⟩
    | left hname hx =>
      cases hname
      exact absurd rfl hx

@[simp] theorem plain_text (u : String) : (text u).plain = u := rfl

theorem count_plain (h : ∀ name ∈ names, name.isText = true) :
    (names.map plain).count v = names.count (text v) := by
  induction names with
  | nil => rfl
  | cons name names ih =>
    have hname : name.isText = true := h name (by simp)
    cases name with
    | text u =>
      rw [map_cons, count_cons, count_cons, ih fun n hn => h n (by simp [hn])]
      simp [plain]
    | _ => cases hname

theorem after_releases_of_notMem (htexts : ∀ name ∈ names, name.isText = true) (hv : text v ∉ names) :
    after v st ((names.map plain).map .release) = some st := by
  apply after_map_of_count_zero fun u => rfl
  rw [count_plain htexts]
  exact count_eq_zero.mpr hv

theorem after_releases_of_mem (htexts : ∀ name ∈ names, name.isText = true)
    (hnodup : names.Nodup) (hv : text v ∈ names) :
    after v (.held r) ((names.map plain).map .release) = some .released := by
  rw [after_map_of_count_one fun u => rfl]
  · cases r <;> rfl
  · rw [count_plain htexts, hnodup.count, if_pos hv]

variable {own : List Name}

/-- What a path through the whole inside of a scope means for `v`. The scope begins in the state `s`
with its `own` variables. -/
inductive Closes (s : State) (own : List Name) (v : String) (t : List Event) (o : List String)
    (x : Exit) (out : Option String) : Prop
  | own : text v ∈ own → o.count v = 0 →
      (∀ r, after v (.held r) t = some (atEnd out v r)) → Closes s own v t o x out
  | outer : s.isHeld v = true → text v ∉ own → o.count v = 0 →
      (∀ r, after v (.held r) t = some (x.settle out (s.isInLoop v) v r)) → Closes s own v t o x out
  | closed : s.isHeld v = false → o.count v = 0 → Finished out v (after v .absent t) →
      Closes s own v t o x out
  | opened (r : Bool) : s.isHeld v = false → o.count v = 1 →
      after v .absent t = some (atEnd out v r) → Closes s own v t o x out

theorem isHeld_iff_of_scopes (hs : s.scopes = own :: outer) :
    s.isHeld v = true ↔ text v ∈ own ∨ text v ∈ outer.flatten := by
  rw [State.isHeld, hs, contains_iff_mem, flatten_cons, mem_append]

theorem Meets.release (hs : s.scopes = own :: outer)
    (htexts : ∀ name ∈ own ++ a, name.isText = true) (hnodup : ((own ++ a) ++ outer.flatten).Nodup)
    (h : Meets s a v t o .next none) :
    Closes s own v (t ++ ((own ++ a).map plain).map .release) o .next none := by
  obtain ⟨hown, -, hapart⟩ := nodup_append.mp hnodup
  cases h with
  | held hv hadded ho hafter =>
    by_cases hmem : text v ∈ own
    · refine .own hmem ho fun r => ?_
      rw [after_append, hafter r]
      exact after_releases_of_mem htexts hown (mem_append_left a hmem)
    · have houter : text v ∈ outer.flatten :=
        ((isHeld_iff_of_scopes hs).mp hv).resolve_left hmem
      refine .outer hv hmem ho fun r => ?_
      rw [after_append, hafter r]
      exact after_releases_of_notMem htexts fun hin => hapart _ hin _ houter rfl
  | closed hv hadded ho hafter =>
    have hmem : text v ∉ own := fun hmem => by
      rw [(isHeld_iff_of_scopes hs).mpr (.inl hmem)] at hv
      cases hv
    have habsent : after v .absent t = some .absent := hafter.resolve_right (by simp)
    refine .closed hv ho (.inl ?_)
    rw [after_append, habsent]
    exact after_releases_of_notMem htexts (by simp [hmem, hadded rfl])
  | opened r hv hadded ho hafter =>
    refine .opened r hv ho ?_
    rw [after_append, hafter]
    exact after_releases_of_mem htexts hown (mem_append_right own hadded)

theorem settle_eq_atEnd (hx : x ≠ .next) (hout : (∀ value, x ≠ .returns value) → out = none) :
    x.settle out true v r = atEnd out v r := by
  cases x with
  | next => exact absurd rfl hx
  | breaks => rw [hout (by simp)]; rfl
  | continues => rw [hout (by simp)]; rfl
  | returns value => rfl

theorem Meets.leave (hs : s.scopes = own :: outer) (hloops : ∀ k ∈ s.loops, k ≤ outer.length)
    (hallows : s.Allows x) (hx : x ≠ .next) (hout : (∀ value, x ≠ .returns value) → out = none)
    (h : Meets s a v t o x out) : Closes s own v t o x out := by
  cases h with
  | held hv hadded ho hafter =>
    by_cases hmem : text v ∈ own
    · refine .own hmem ho fun r => ?_
      have hinLoop : s.loops ≠ [] → s.isInLoop v = true := by
        intro hopen
        cases hl : s.loops with
        | nil => exact absurd hl hopen
        | cons k loops =>
          have hk : k ≤ outer.length := hloops k (by simp [hl])
          rw [State.isInLoop, State.scopesInLoop, hl, hs]
          simp only [length_cons]
          rw [Nat.succ_sub hk]
          simp [hmem]
      rw [hafter r, settle_of_allowed hallows hinLoop, settle_eq_atEnd hx hout]
    · exact .outer hv hmem ho hafter
  | closed hv hadded ho hafter => exact .closed hv ho hafter
  | opened r hv hadded ho hafter =>
    refine .opened r hv ho ?_
    rw [hafter, settle_eq_atEnd hx hout]

/-- Code at the end of a scope, after the code `c` that led to the state `s₁`: releases of what the
scope holds, unless the end is not reached. -/
def EndsScope (c : List Code) (s₁ : State) (exit : List Code) : Prop :=
  (∃ depth root, exit = releases depth root (s₁.scopes.headD [])) ∨
    exit = [] ∧ ∀ t o, ¬ pathsAll c t o .next

theorem Piece.closes (hs : s.scopes = own :: outer)
    (hloops : ∀ k ∈ s.loops, k ≤ outer.length) (h : Piece W nodes env a s c s₁)
    (htidy : Tidy s₁ []) (hexit : EndsScope c s₁ exit) (hpath : pathsAll (c ++ exit) t o x)
    (hallows : s.Allows x) :
    ∃ out, Ends env nodes x out ∧ ∀ v, W v → Closes s own v t o x out := by
  have hscopes : s₁.scopes = (own ++ a) :: outer := by rw [h.scopes, hs, growScopes]
  cases pathsAll_append.mp hpath with
  | left hc hx =>
    obtain ⟨out, hout, hmeets⟩ := h.paths _ _ _ hc hallows
    exact ⟨out, hout, fun v hv => (hmeets v hv).leave hs hloops hallows hx hout.eq_none⟩
  | both hc hd =>
    cases hexit with
    | inr hnever => exact absurd hc (hnever.2 _ _)
    | inl hreleases =>
      obtain ⟨depth, root, rfl⟩ := hreleases
      rw [hscopes, headD_cons] at hd
      obtain ⟨rfl, rfl, rfl⟩ := pathsAll_releases hd
      obtain ⟨out, hout, hmeets⟩ := h.paths _ _ _ hc hallows
      obtain rfl := hout.eq_none (by simp)
      have htexts := htidy.texts
      have hnodup := htidy.distinct
      rw [hscopes, append_nil, flatten_cons] at htexts hnodup
      refine ⟨none, hout, fun v hv => ?_⟩
      exact (hmeets v hv).release hs (fun name hname => htexts name (mem_append_left _ hname))
        hnodup

structure OpensScope (s u : State) : Prop where
  scopes : u.scopes = [] :: s.scopes
  loops : u.loops = s.loops
  consumed : u.consumed = s.consumed
  locks : s.locks ≤ u.locks

theorem OpensScope.isHeld (h : OpensScope s u) : u.isHeld v = s.isHeld v := by
  rw [State.isHeld, State.isHeld, h.scopes]
  rfl

theorem OpensScope.isInLoop (h : OpensScope s u)
    (hloops : ∀ k ∈ s.loops, k ≤ s.scopes.length) : u.isInLoop v = s.isInLoop v := by
  rw [State.isInLoop, State.isInLoop, State.scopesInLoop, State.scopesInLoop, h.scopes, h.loops]
  cases hl : s.loops with
  | nil => rfl
  | cons k loops =>
    have hk : k ≤ s.scopes.length := hloops k (by simp [hl])
    simp only [length_cons]
    rw [Nat.succ_sub hk]
    rfl

theorem Closes.finished (h : Closes s own v t o x out) (hv : s.isHeld v = false)
    (hown : text v ∉ own) : Finished out v (after v .absent (t ++ o.map .leave)) := by
  cases h with
  | own hmem => exact absurd hmem hown
  | outer hheld => rw [hv] at hheld; cases hheld
  | closed _ ho hafter =>
    rw [after_append_leave ho]
    exact hafter
  | opened r _ ho hafter =>
    have hleave : after v .absent (t ++ o.map .leave) = (atEnd out v r).step (.leave v) := by
      rw [after_append, hafter]
      exact after_map_of_count_one (fun _ => rfl) ho
    rw [hleave, atEnd]
    split
    · next hout => exact .inr ⟨by cases r <;> rfl, hout⟩
    · exact .inl rfl

theorem Closes.scoped (hu : OpensScope s u)
    (hloops : ∀ k ∈ s.loops, k ≤ s.scopes.length) (h : Closes u [] v t o x out) :
    Meets s [] v (t ++ o.map .leave) [] x out := by
  cases hv : u.isHeld v with
  | false =>
    exact .closed (hu.isHeld ▸ hv) (by simp) (by simp) (h.finished hv (by simp))
  | true =>
    cases h with
    | own hmem => cases hmem
    | outer _ _ ho hafter =>
      refine .held (hu.isHeld ▸ hv) (by simp) (by simp) fun r => ?_
      rw [after_append_leave ho, hafter r, hu.isInLoop hloops]
    | closed hv' => rw [hv] at hv'; cases hv'
    | opened _ hv' => rw [hv] at hv'; cases hv'

theorem Piece.braces (hu : OpensScope s u)
    (hloops : ∀ k ∈ s.loops, k ≤ s.scopes.length) (h : Piece W nodes env a u c s₁)
    (htidy : Tidy s₁ []) (hexit : EndsScope c s₁ exit) :
    Piece W nodes env [] s [.block depth (c ++ exit)] { s₁ with scopes := s₁.scopes.tail } := by
  constructor
  · rw [h.scopes, hu.scopes, growScopes_nil]
    rfl
  · exact h.loops.trans hu.loops
  · exact h.consumed.trans hu.consumed
  · exact Nat.le_trans hu.locks h.locks
  · intro t o x hpath hallows
    have hallows' : u.Allows x := by rwa [State.Allows, hu.loops]
    cases pathsAll_block.mp hpath with
    | intro hpath =>
      obtain ⟨out, hout, hcloses⟩ := h.closes hu.scopes (hu.loops ▸ hloops) htidy hexit hpath
        hallows'
      exact ⟨out, hout, fun v hv => (hcloses v hv).scoped hu hloops⟩

theorem Piece.braces_of_closed (h : Piece W nodes env [] s c s') :
    Piece W nodes env [] s [.block depth c] s' := by
  refine ⟨h.scopes, h.loops, h.consumed, h.locks, fun t o x hpath hallows => ?_⟩
  cases pathsAll_block.mp hpath with
  | intro hpath =>
    obtain ⟨out, hout, hmeets⟩ := h.paths _ _ _ hpath hallows
    refine ⟨out, hout, fun v hv => ?_⟩
    cases hmeets v hv with
    | held hv hadded ho hafter =>
      refine .held hv hadded (by simp) fun r => ?_
      rw [after_append_leave ho, hafter r]
    | closed hv hadded ho hafter =>
      refine .closed hv hadded (by simp) ?_
      rw [after_append_leave ho]
      exact hafter
    | opened _ _ hadded => cases hadded

end ObjcLowering.Lowering
