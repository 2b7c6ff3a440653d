import ObjcLowering.Proofs.Lowering.Structured
import ObjcLowering.Proofs.Target.Lifetimes

/-!
Pieces of code that account for the variables they hold: its paths leave every variable as the state
before it demands.
-/

namespace ObjcLowering.Lowering

open Ast Code Behavior Standing List

namespace State

def isHeld (s : State) (v : String) : Bool := s.scopes.flatten.contains (.text v)

def isInLoop (s : State) (v : String) : Bool := s.scopesInLoop.flatten.contains (.text v)

def Allows (s : State) (x : Exit) : Prop := x = .breaks ∨ x = .continues → s.loops ≠ []

def Inside (s : State) : Prop :=
  ∃ top rest, s.scopes = top :: rest ∧ ∀ outside ∈ s.loops, outside ≤ rest.length

end State

def growScopes (added : List Name) : List (List Name) → List (List Name)
  | [] => []
  | top :: rest => (top ++ added) :: rest

@[simp] theorem growScopes_nil (scopes : List (List Name)) : growScopes [] scopes = scopes := by
  cases scopes <;> simp [growScopes]

theorem growScopes_append (a b : List Name) (scopes : List (List Name)) :
    growScopes (a ++ b) scopes = growScopes b (growScopes a scopes) := by
  cases scopes <;> simp [growScopes]

def IsWrittenAs (env : Env) (e : Node) (text : String) : Prop :=
  ∃ k v s s', returnValue e = .ok v ∧ Yields ((level k).expr v) env s text s'

/-- The variable that is handed out on a way out: that of the return statement it leads through. -/
inductive Ends (env : Env) (nodes : List Node) : Exit → Option String → Prop
  | onward : (∀ value, x ≠ .returns value) → Ends env nodes x none
  | bare {ret : Node} : ret ∈ nodes → ret.kind = "ReturnStmt" → ret.inner = [] →
      Ends env nodes (.returns none) none
  | value {ret e : Node} {rest : List Node} {text : String} {out : Option String} :
      ret ∈ nodes → ret.kind = "ReturnStmt" → ret.inner = e :: rest → IsWrittenAs env e text →
      (∀ v, out = some v ↔ Denotes transparentKinds e (.text v)) →
      Ends env nodes (.returns (some text)) out

theorem Ends.eq_none (h : Ends env nodes x out) (hx : ∀ value, x ≠ .returns value) : out = none := by
  cases h with
  | onward _ => rfl
  | bare _ _ _ => rfl
  | value _ _ _ _ _ => exact absurd rfl (hx _)

/-- What a path means for the variable `v`, seen from the state `s` before it: a variable in scope is
settled as the way out demands, and one that is not lives through whole lifetimes. The last one is
not over if the variable is among those `added` to the scope. -/
inductive Meets (s : State) (added : List Name) (v : String) (t : List Event) (o : List String)
    (x : Exit) (out : Option String) : Prop
  | held : s.isHeld v = true → (x = .next → Json.text v ∉ added) → o.count v = 0 →
      (∀ r, after v (.held r) t = some (x.settle out (s.isInLoop v) v r)) → Meets s added v t o x out
  | closed : s.isHeld v = false → (x = .next → Json.text v ∉ added) → o.count v = 0 →
      Finished out v (after v .absent t) → Meets s added v t o x out
  | opened (r : Bool) : s.isHeld v = false → Json.text v ∈ added → o.count v = 1 →
      after v .absent t = some (x.settle out true v r) → Meets s added v t o x out

/-- A piece of code that leads from `s` to `s'`. `W` are the variables that are watched, `nodes` the
nodes of the body that it is part of. -/
structure Piece (W : String → Prop) (nodes : List Node) (env : Env) (added : List Name) (s : State)
    (code : List Code) (s' : State) : Prop where
  scopes : s'.scopes = growScopes added s.scopes
  loops : s'.loops = s.loops
  consumed : s'.consumed = s.consumed
  locks : s.locks ≤ s'.locks
  paths : ∀ t o x, pathsAll code t o x → s.Allows x →
    ∃ out, Ends env nodes x out ∧ ∀ v, W v → Meets s added v t o x out

variable {s s₁ s' : State}

theorem Meets.congr (hscopes : s₁.scopes = s.scopes) (hloops : s₁.loops = s.loops)
    (h : Meets s a v t o x out) : Meets s₁ a v t o x out := by
  have hheld : s₁.isHeld v = s.isHeld v := by rw [State.isHeld, State.isHeld, hscopes]
  have hloop : s₁.isInLoop v = s.isInLoop v := by
    rw [State.isInLoop, State.isInLoop, State.scopesInLoop, State.scopesInLoop, hscopes, hloops]
  cases h with
  | held h hnext ho hafter => exact .held (hheld.trans h) hnext ho (by rw [hloop]; exact hafter)
  | closed h hnext ho hafter => exact .closed (hheld.trans h) hnext ho hafter
  | opened r h hadded ho hafter => exact .opened r (hheld.trans h) hadded ho hafter

theorem Piece.congr (hs : ownershipFrame.rel s u) (h : Piece W nodes env a u c u')
    (hs' : ownershipFrame.rel u' s') : Piece W nodes env a s c s' := by
  obtain ⟨⟨hscopes, hloops, hlocks⟩, hconsumed⟩ := hs
  obtain ⟨⟨hscopes', hloops', hlocks'⟩, hconsumed'⟩ := hs'
  constructor
  · rw [hscopes', h.scopes, hscopes]
  · rw [hloops', h.loops, hloops]
  · rw [hconsumed', h.consumed, hconsumed]
  · rw [hlocks', ← hlocks]
    exact h.locks
  · intro t o x hpath hallows
    rw [State.Allows, ← hloops] at hallows
    obtain ⟨out, hout, hmeets⟩ := h.paths t o x hpath hallows
    exact ⟨out, hout, fun v hv => (hmeets v hv).congr hscopes.symm hloops.symm⟩

theorem isHeld_grow (hs : s.Inside) (h : s₁.scopes = growScopes a s.scopes) :
    s₁.isHeld v = (s.isHeld v || a.contains (.text v)) := by
  obtain ⟨top, rest, hscopes, -⟩ := hs
  rw [State.isHeld, State.isHeld, h, hscopes, Bool.eq_iff_iff]
  simp [growScopes, or_comm, or_left_comm]

theorem isInLoop_grow (h : s₁.scopes = growScopes a s.scopes) (hloops : s₁.loops = s.loops)
    (hv : Json.text v ∉ a) : s₁.isInLoop v = s.isInLoop v := by
  unfold State.isInLoop State.scopesInLoop
  rw [h, hloops]
  cases s.loops with
  | nil => rfl
  | cons outside loops =>
    cases s.scopes with
    | nil => rfl
    | cons top rest =>
      simp only [growScopes, length_cons]
      cases rest.length + 1 - outside with
      | zero => rfl
      | succ k => simp [hv]

theorem isInLoop_of_added (hs : s.Inside) (h : s₁.scopes = growScopes a s.scopes)
    (hloops : s₁.loops = s.loops) (hopen : s.loops ≠ []) (hv : Json.text v ∈ a) :
    s₁.isInLoop v = true := by
  obtain ⟨top, rest, hscopes, houtside⟩ := hs
  unfold State.isInLoop State.scopesInLoop
  rw [h, hloops, hscopes]
  cases hl : s.loops with
  | nil => exact absurd hl hopen
  | cons outside loops =>
    have hle : outside ≤ rest.length := houtside outside (by simp [hl])
    simp only [growScopes, length_cons]
    rw [Nat.succ_sub hle]
    simp [hv]

theorem settle_of_allowed (hx : s.Allows x) (h : s.loops ≠ [] → inLoop = true) :
    x.settle out inLoop v r = x.settle out true v r := by
  cases x with
  | next => rfl
  | breaks => rw [h (hx (.inl rfl))]
  | continues => rw [h (hx (.inr rfl))]
  | returns value => rfl

theorem Meets.append (hheld : s₁.isHeld v = (s.isHeld v || a.contains (.text v)))
    (hkept : Json.text v ∉ a → s₁.isInLoop v = s.isInLoop v)
    (hnew : Json.text v ∈ a → s.loops ≠ [] → s₁.isInLoop v = true)
    (hx : s.Allows x) (h : Meets s a v t o .next none) (h' : Meets s₁ b v t' o' x out) :
    Meets s (a ++ b) v (t ++ t') (o' ++ o) x out := by
  cases h with
  | held hv hadded ho hafter =>
    rw [hv, Bool.true_or] at hheld
    cases h' with
    | held _ hadded' ho' hafter' =>
      refine .held hv (fun hx => ?_) ?_ fun r => ?_
      · simp [hadded rfl, hadded' hx]
      · simp [ho, ho']
      · rw [after_append, hafter r, ← hkept (hadded rfl)]
        exact hafter' r
    | closed hv' => rw [hheld] at hv'; cases hv'
    | opened _ hv' => rw [hheld] at hv'; cases hv'
  | closed hv hadded ho hafter =>
    have hout : after v .absent t = some .absent := by
      cases hafter with
      | inl h => exact h
      | inr h => cases h.2
    rw [hv, Bool.false_or, contains_eq_mem, decide_eq_false (hadded rfl)] at hheld
    cases h' with
    | held hv' => rw [hheld] at hv'; cases hv'
    | closed _ hadded' ho' hafter' =>
      refine .closed hv (fun hx => ?_) ?_ ?_
      · simp [hadded rfl, hadded' hx]
      · simp [ho, ho']
      · rw [after_append, hout]
        exact hafter'
    | opened r _ hadded' ho' hafter' =>
      refine .opened r hv ?_ ?_ ?_
      · simp [hadded']
      · simp [ho, ho']
      · rw [after_append, hout]
        exact hafter'
  | opened r hv hadded ho hafter =>
    rw [hv, Bool.false_or, contains_eq_mem, decide_eq_true hadded] at hheld
    cases h' with
    | held _ hadded' ho' hafter' =>
      refine .opened r hv ?_ ?_ ?_
      · simp [hadded]
      · simp [ho, ho']
      · have hsettle : x.settle out (s₁.isInLoop v) v r = x.settle out true v r :=
          settle_of_allowed hx (hnew hadded)
        rw [after_append, hafter, ← hsettle]
        exact hafter' r
    | closed hv' => rw [hheld] at hv'; cases hv'
    | opened _ hv' => rw [hheld] at hv'; cases hv'

theorem Meets.weaken (hx : x ≠ .next) (h : Meets s a v t o x out) :
    Meets s (a ++ b) v t o x out := by
  cases h with
  | held hv _ ho hafter => exact .held hv (fun h => absurd h hx) ho hafter
  | closed hv _ ho hafter => exact .closed hv (fun h => absurd h hx) ho hafter
  | opened r hv hadded ho hafter => exact .opened r hv (by simp [hadded]) ho hafter

theorem Piece.append (hs : s.Inside) (h : Piece W nodes env a s c s₁)
    (h' : Piece W nodes env b s₁ d s') : Piece W nodes env (a ++ b) s (c ++ d) s' := by
  constructor
  · rw [h'.scopes, h.scopes, growScopes_append]
  · rw [h'.loops, h.loops]
  · rw [h'.consumed, h.consumed]
  · exact Nat.le_trans h.locks h'.locks
  · intro t o x hpath hallows
    cases pathsAll_append.mp hpath with
    | both hc hd =>
      have hallows' : s₁.Allows x := by rwa [State.Allows, h.loops]
      obtain ⟨out₁, hout₁, hmeets₁⟩ := h.paths _ _ _ hc (by rintro (h | h) <;> cases h)
      obtain ⟨out, hout, hmeets⟩ := h'.paths _ _ _ hd hallows'
      obtain rfl : out₁ = none := hout₁.eq_none fun value h => by cases h
      refine ⟨out, hout, fun v hv => (hmeets₁ v hv).append (isHeld_grow hs h.scopes) ?_ ?_ hallows
        (hmeets v hv)⟩
      · exact isInLoop_grow h.scopes h.loops
      · exact fun hadded hopen => isInLoop_of_added hs h.scopes h.loops hopen hadded
    | left hc hx =>
      obtain ⟨out, hout, hmeets⟩ := h.paths _ _ _ hc hallows
      exact ⟨out, hout, fun v hv => (hmeets v hv).weaken hx⟩

theorem pathsAll_temps : pathsAll (temps depth s) t o x ↔ Jump .next t o x := by
  unfold temps
  induction s.pending generalizing t o x with
  | nil => simp only [map_nil, pathsAll]
  | cons decl decls ih =>
    have h : pathsAll (decls.map (.temp depth)) = Jump .next := by
      funext t o x
      exact propext ih
    simp only [map_cons, pathsAll, paths, h, chain_skip_left]

theorem pathsAll_temps_append : pathsAll (temps depth s ++ c) t o x ↔ pathsAll c t o x := by
  have h : pathsAll (temps depth s) = Jump .next := by
    funext t o x
    exact propext pathsAll_temps
  rw [pathsAll_append, h, chain_skip_left]

theorem Meets.skip : Meets s [] v [] [] .next none := by
  cases hv : s.isHeld v with
  | true => exact .held hv (by simp) (by simp) fun r => rfl
  | false => exact .closed hv (by simp) (by simp) (.inl rfl)

theorem Piece.skip (hs : ownershipFrame.rel s s')
    (h : ∀ t o x, pathsAll c t o x → Jump .next t o x) : Piece W nodes env [] s c s' := by
  obtain ⟨⟨hscopes, hloops, hlocks⟩, hconsumed⟩ := hs
  refine ⟨by rw [hscopes, growScopes_nil], hloops, hconsumed, Nat.le_of_eq hlocks.symm,
    fun t o x hpath _ => ?_⟩
  cases h t o x hpath
  exact ⟨none, .onward (by simp), fun v _ => .skip⟩

theorem Piece.temps_append (h : Piece W nodes env a s c s') : Piece W nodes env a s (temps depth u ++ c) s' :=
  ⟨h.scopes, h.loops, h.consumed, h.locks,
    fun t o x hpath => h.paths t o x (pathsAll_temps_append.mp hpath)⟩

def OpensLoop (s u : State) : Prop := u.scopes = s.scopes ∧ u.loops = s.scopes.length :: s.loops

theorem OpensLoop.isHeld (hu : OpensLoop s u) : u.isHeld v = s.isHeld v := by
  rw [State.isHeld, State.isHeld, hu.1]

theorem OpensLoop.isInLoop (hu : OpensLoop s u) : u.isInLoop v = false := by
  simp [State.isInLoop, State.scopesInLoop, hu.1, hu.2]

theorem Meets.round (hu : OpensLoop s u) (hx : ∀ value, x ≠ .returns value)
    (h : Meets u [] v t o x none) : Meets s [] v t o .next none := by
  cases h with
  | held hv _ ho hafter =>
    refine .held (hu.isHeld ▸ hv) (by simp) ho fun r => ?_
    rw [hafter r, hu.isInLoop]
    cases x with
    | returns value => exact absurd rfl (hx value)
    | next => rfl
    | breaks => rfl
    | continues => rfl
  | closed hv _ ho hafter => exact .closed (hu.isHeld ▸ hv) (by simp) ho hafter
  | opened _ _ hadded => cases hadded

theorem Meets.returned (hu : OpensLoop s u)
    (h : Meets u [] v t o (.returns value) out) : Meets s [] v t o (.returns value) out := by
  cases h with
  | held hv _ ho hafter => exact .held (hu.isHeld ▸ hv) (by simp) ho hafter
  | closed hv _ ho hafter => exact .closed (hu.isHeld ▸ hv) (by simp) ho hafter
  | opened _ _ hadded => cases hadded

theorem pathsAll_block : pathsAll [.block depth c] t o x ↔ Scoped (pathsAll c) t o x := by
  rw [pathsAll_singleton, paths]

theorem meets_of_loop (hu : OpensLoop s u) (h : Piece W nodes env [] u [.block depth c] u')
    (hloop : Loop (Scoped (pathsAll c)) tested t o x) :
    ∃ out, Ends env nodes x out ∧ ∀ v, W v → Meets s [] v t o x out := by
  have hround : ∀ {t o x}, Scoped (pathsAll c) t o x → (∀ value, x ≠ .returns value) →
      ∀ v, W v → Meets s [] v t [] .next none := by
    intro t o x hpath hx v hv
    obtain ⟨out, hout, hmeets⟩ := h.paths t o x (pathsAll_block.mpr hpath)
      (by simp [State.Allows, hu.2])
    obtain rfl := hout.eq_none hx
    cases hpath
    exact (hmeets v hv).round hu hx
  induction hloop with
  | done => exact ⟨none, .onward (by simp), fun v _ => .skip⟩
  | again hpath hx hrest ih =>
    obtain ⟨out, hout, hmeets⟩ := ih
    refine ⟨out, hout, fun v hv => ?_⟩
    have hfirst := hround hpath (by rintro value rfl; simp at hx) v hv
    have hboth := hfirst.append (by simp) (fun _ => rfl) (by simp)
      (by simp [State.Allows, hrest.exit]) (hmeets v hv)
    simpa using hboth
  | broken hpath => exact ⟨none, .onward (by simp), hround hpath (by simp)⟩
  | returned hpath =>
    obtain ⟨out, hout, hmeets⟩ := h.paths _ _ _ (pathsAll_block.mpr hpath) (by simp [State.Allows])
    cases hpath
    exact ⟨out, hout, fun v hv => (hmeets v hv).returned hu⟩

end ObjcLowering.Lowering
