import ObjcLowering.Proofs.Lowering.Surroundings
import ObjcLowering.Proofs.Tables

/-!
What a break out of a switch releases: all that the innermost loop around the switch has opened, and
nothing outside of a loop.
-/

namespace ObjcLowering

def Code.isBreak : Code → Bool
  | .breaks _ => true
  | _ => false

namespace Lowering

open Ast
open List hiding length

def inLoop : List Enclosure → Option (List Enclosure)
  | [] => none
  | e :: rest => if e.isLoop then some [] else (inLoop rest).map (e :: ·)

theorem inLoop_append (h : ∀ e ∈ inside, e.isLoop = false) :
    inLoop (inside ++ outside) = (inLoop outside).map (inside ++ ·) := by
  induction inside with
  | nil => simp
  | cons e inside ih =>
    rw [forall_mem_cons] at h
    simp [inLoop, h.1, ih h.2, Function.comp_def]

theorem inLoop_eq_some (h : inLoop around = some near) :
    ∃ far, around = near ++ .loop :: far ∧ ∀ e ∈ near, e.isLoop = false := by
  induction around generalizing near with
  | nil => cases h
  | cons e rest ih =>
    rw [inLoop] at h
    split at h
    · next he =>
      cases h
      cases e with
      | loop => exact ⟨rest, rfl, by simp⟩
      | _ => cases he
    · next he =>
      obtain ⟨near', hnear, rfl⟩ := Option.map_eq_some_iff.mp h
      obtain ⟨far, rfl, hloops⟩ := ih hnear
      exact ⟨far, rfl, forall_mem_cons.mpr ⟨Bool.eq_false_iff.mpr he, hloops⟩⟩

theorem loopsOf_eq_nil (h : inLoop around = none) : loopsOf around = [] := by
  induction around with
  | nil => rfl
  | cons e rest ih =>
    cases e with
    | loop => cases h
    | scope vars => exact ih (Option.map_eq_none_iff.mp h)
    | switch vars => exact ih (Option.map_eq_none_iff.mp h)

theorem loopsOf_append (h : ∀ e ∈ near, e.isLoop = false) : loopsOf (near ++ rest) = loopsOf rest := by
  induction near with
  | nil => rfl
  | cons e near ih =>
    have ih' := ih fun e' he' => h e' (.tail _ he')
    cases e with
    | scope vars => exact ih'
    | switch vars => exact ih'
    | loop => exact absurd (h _ (.head _)) (by decide)

theorem length_scopesOf (above : List Name) (around : List Enclosure) :
    (scopesOf above around).length = (scopesOf [] around).length := by
  have h := scopesOf_append [] above around
  rw [nil_append] at h
  rw [h, length_trackAll]

theorem exists_scopesOf_append (above : List Name) (near rest : List Enclosure) :
    ∃ carried, scopesOf above (near ++ rest) = scopesOf above near ++ scopesOf carried rest := by
  induction near generalizing above with
  | nil => exact ⟨above, rfl⟩
  | cons e near ih =>
    cases e with
    | scope vars =>
      obtain ⟨carried, h⟩ := ih []
      exact ⟨carried, by simp [scopesOf, h]⟩
    | switch vars => exact ih _
    | loop => exact ih _

theorem Mirrors.scopesInLoop (h : Mirrors s around) :
    s.scopesInLoop = ((inLoop around).map (scopesOf [])).getD [] := by
  cases hnear : inLoop around with
  | none =>
    rw [State.scopesInLoop, h.2, loopsOf_eq_nil hnear]
    rfl
  | some near =>
    obtain ⟨far, rfl, hloops⟩ := inLoop_eq_some hnear
    obtain ⟨carried, hscopes⟩ := exists_scopesOf_append [] near (.loop :: far)
    have hfar : scopesOf carried (.loop :: far) = scopesOf carried far := rfl
    rw [State.scopesInLoop, h.1, h.2, loopsOf_append hloops, hscopes, hfar]
    simp [loopsOf, length_scopesOf carried]

def namesOf (es : List Enclosure) : List Name := es.flatMap Enclosure.names

def localsOf (es : List Enclosure) : List Name := es.flatMap Enclosure.locals

def straysOf (es : List Enclosure) : List Name := es.flatMap Enclosure.strays

theorem mem_scopesOf (h : x ∈ (scopesOf above around).flatten) : x ∈ above ∨ x ∈ namesOf around := by
  induction around generalizing above with
  | nil => cases h
  | cons e rest ih =>
    rw [namesOf, flatMap_cons, mem_append]
    cases e with
    | scope vars =>
      rw [scopesOf, flatten_cons, mem_append] at h
      rcases h with h | h
      · rcases mem_addAllNew.mp h with h | h
        · cases h
        · exact (mem_append.mp h).symm.imp id .inl
      · exact .inr (.inr ((ih h).resolve_left (by simp)))
    | switch vars =>
      rcases ih h with h | h
      · exact (mem_append.mp h).symm.imp id .inl
      · exact .inr (.inr h)
    | loop => exact (ih h).imp id .inr

theorem flatten_scopesOf_scopes {inside rest : List Enclosure}
    (hscopes : ∀ e ∈ inside, e.isScope = true) (hnames : (namesOf inside).Nodup) :
    (scopesOf [] (inside ++ rest)).flatten =
      namesOf inside ++ (scopesOf [] rest).flatten := by
  induction inside with
  | nil => rfl
  | cons e inside ih =>
    rw [namesOf, flatMap_cons] at hnames
    obtain ⟨he, hinside, -⟩ := nodup_append.mp hnames
    rw [forall_mem_cons] at hscopes
    cases e with
    | scope vars =>
      have hvars : addAllNew [] (vars.map Entry.name) = vars.map Entry.name :=
        addAllNew_eq_append he (by simp)
      simp [scopesOf, hvars, ih hscopes.2 hinside, namesOf, Enclosure.names, Enclosure.vars]
    | switch vars => cases hscopes.1
    | loop => cases hscopes.1

theorem perm_locals_append_strays (e : Enclosure) : e.names.Perm (e.locals ++ e.strays) := by
  rw [Enclosure.names, Enclosure.locals, Enclosure.strays, ← map_append]
  exact (filter_append_perm _ e.vars).symm.map _

theorem perm_namesOf (es : List Enclosure) :
    (namesOf es).Perm (localsOf es ++ straysOf es) :=
  (Perm.flatMap_left es fun e _ => perm_locals_append_strays e).trans
    (flatMap_append_perm es _ _).symm

theorem scopesOf_eq_nil (h : around.any Enclosure.isScope = false) : scopesOf above around = [] := by
  induction around generalizing above with
  | nil => rfl
  | cons e rest ih =>
    rw [any_cons, Bool.or_eq_false_iff] at h
    cases e with
    | scope vars => cases h.1
    | switch vars => exact ih h.2
    | loop => exact ih h.2

theorem exists_scopesOf_eq_cons (h : around.any Enclosure.isScope = true) :
    ∃ top rest, scopesOf above around = top :: rest := by
  induction around generalizing above with
  | nil => cases h
  | cons e rest ih =>
    cases e with
    | scope vars => exact ⟨_, _, rfl⟩
    | switch vars => exact ih h
    | loop => exact ih h

section

theorem perm_scopesOf_switch (hnames : (own.map Entry.name ++ namesOf near).Nodup)
    (hnear : near.any Enclosure.isScope = true) :
    (scopesOf [] (.switch own :: near)).flatten.Perm
      (own.map Entry.name ++ (scopesOf [] near).flatten) := by
  obtain ⟨hown, -, hdisjoint⟩ := nodup_append.mp hnames
  obtain ⟨top, rest, htop⟩ : ∃ top rest, scopesOf [] near = top :: rest :=
    exists_scopesOf_eq_cons hnear
  have hnew : ∀ x ∈ own.map Entry.name, x ∉ top := by
    intro x hx hmem
    have hflat : x ∈ (scopesOf [] near).flatten := by
      rw [htop]
      exact mem_append_left _ hmem
    exact hdisjoint x hx x ((mem_scopesOf hflat).resolve_left (by simp)) rfl
  have hgrown := scopesOf_append [] (own.map Entry.name) near
  rw [htop, trackAll, addAllNew_eq_append hown hnew, nil_append] at hgrown
  rw [scopesOf, append_nil, hgrown, htop, flatten_cons, flatten_cons,
    append_assoc]
  exact perm_append_comm_assoc _ _ _

theorem perm_scopes_of_scope (hscopes : ∀ e ∈ inside, e.isScope = true)
    (hnames : (namesOf (inside ++ .switch own :: near)).Nodup)
    (hnear : near.any Enclosure.isScope = true) :
    (scopesOf [] (inside ++ .switch own :: near)).flatten.Perm
      (localsOf (inside ++ [.switch own])
        ++ (straysOf (inside ++ [.switch own]) ++ (scopesOf [] near).flatten)) := by
  rw [namesOf, flatMap_append] at hnames
  obtain ⟨hinside, hrest, -⟩ := nodup_append.mp hnames
  have hswitch := perm_scopesOf_switch hrest hnear
  have hsplit := (perm_namesOf (inside ++ [.switch own])).append_right (scopesOf [] near).flatten
  rw [flatten_scopesOf_scopes hscopes hinside]
  rw [append_assoc] at hsplit
  refine (hswitch.append_left _).trans (Perm.trans (.of_eq ?_) hsplit)
  simp [namesOf, Enclosure.names, Enclosure.vars]

theorem perm_scopes_of_noScope (hscopes : ∀ e ∈ inside, e.isScope = true)
    (hnames : (namesOf inside).Nodup) (hnear : near.any Enclosure.isScope = false) :
    (scopesOf [] (inside ++ .switch own :: near)).flatten.Perm
      (localsOf inside ++ straysOf inside) := by
  have hswitch : scopesOf [] (.switch own :: near) = [] := scopesOf_eq_nil hnear
  rw [flatten_scopesOf_scopes hscopes hnames, hswitch, flatten_nil, append_nil]
  exact perm_namesOf inside

end

theorem eq_of_copyMacro (h : Yields (copyMacro expr source n offset length) env s none t) : t = s := by
  simp only [copyMacro, yields_liftM_bind] at h
  obtain ⟨offset', -, length', -, text, -, isIncluded, -, h⟩ := h
  split at h
  · exact (yields_pure.mp h).2
  · obtain ⟨patches, u, -, h⟩ := yields_bind.mp h
    obtain ⟨copy, -, h⟩ := yields_liftM_bind.mp h
    cases (yields_pure.mp h).1

theorem Frame.rel_of_uncopied {F : Frame} (h : Yields (copyStmt? expr n) env s none t) : F.rel s t := by
  simp only [copyStmt?, yields_liftM_bind] at h
  obtain ⟨use, -, h⟩ := h
  cases use with
  | none => rw [(yields_pure.mp h).2]; exact F.refl s
  | some use =>
    obtain ⟨ends, -, h⟩ := yields_liftM_bind.mp h
    split at h
    · rw [(yields_pure.mp h).2]; exact F.refl s
    · rw [yields_read_bind] at h
      split at h
      · rw [eq_of_copyMacro h]; exact F.refl s
      · obtain ⟨_, u, hwarn, h⟩ := yields_bind.mp h
        rw [(yields_pure.mp h).2]
        exact Frame.keeps_warn _ _ _ _ hwarn

theorem written_of_break (hkind : n.kind = "BreakStmt")
    (h : Yields ((level k).stmt depth n) env s code s') :
    Code.released code =
      (if code.any Code.isBreak then s.scopesInLoop.flatMap s.owned else []).map Json.plain := by
  cases k with
  | zero => exact absurd h yields_throw
  | succ k =>
    obtain ⟨m, hm, h⟩ := yields_liftM_bind.mp h
    obtain ⟨-, rfl⟩ := Node.check_eq_ok.mp hm
    obtain ⟨copy, t, hcopy, hcode⟩ := yields_bind.mp h
    cases copy with
    | some text =>
      obtain ⟨rfl, -⟩ := yields_pure.mp hcode
      rfl
    | none =>
      obtain ⟨⟨hscopes, hloops, -⟩, hconsumed⟩ := ownershipFrame.rel_of_uncopied hcopy
      simp only [lowerStmtKind, hkind, yields_bind, yields_releaseLoop, yields_pure] at hcode
      obtain ⟨_, _, ⟨rfl, rfl⟩, rfl, rfl⟩ := hcode
      have howned : s'.owned = s.owned := by
        funext scope
        rw [State.owned, State.owned, hconsumed]
      have hjump : (releases depth env.root (s'.scopesInLoop.flatMap s'.owned)
          ++ [Code.breaks depth]).any Code.isBreak = true := by simp [Code.isBreak]
      have hlast : Code.released [.breaks depth] = [] := rfl
      rw [Code.released_append, released_releases, hlast, append_nil, if_pos hjump,
        State.scopesInLoop, State.scopesInLoop, hscopes, hloops, howned]

/-- When a break of a switch releases what it should: what the blocks between it and the switch own.
Outside of a loop nothing is released. Within a loop, `near` are the enclosures between the loop and
the switch; if there is a block among them, all of its variables are released too, and if there is
none, those declared in the body of the switch itself are not. -/
def UnwindsSwitch (s : State) (inside : List Enclosure) (own : List Entry) :
    Option (List Enclosure) → Prop
  | none => s.owned (localsOf (inside ++ [.switch own])) = []
  | some near =>
    if near.any Enclosure.isScope then
      s.owned (straysOf (inside ++ [.switch own]) ++ (scopesOf [] near).flatten) = []
    else s.owned (straysOf inside ++ (Enclosure.switch own).locals) = []

theorem perm_map_iff_of_perm_append {A B X : List Name}
    (h : A.Perm (B ++ X)) : (A.map f).Perm (B.map f) ↔ X = [] := by
  constructor
  · intro hperm
    have hlength := hperm.length_eq
    have hall := h.length_eq
    simp only [length_map, length_append] at hlength hall
    exact length_eq_zero_iff.mp (by omega)
  · rintro rfl
    rw [append_nil] at h
    exact h.map f

theorem perm_map_iff_of_disjoint {A B X Y : List Name} (h : A.Perm (B ++ X))
    (hnames : ((X ++ Y).map f).Nodup) : (A.map f).Perm ((B ++ Y).map f) ↔ X ++ Y = [] := by
  have hall : (A.map f).Perm (B.map f ++ X.map f) := by
    rw [← map_append]
    exact h.map f
  rw [map_append] at hnames
  obtain ⟨-, -, hdisjoint⟩ := nodup_append.mp hnames
  constructor
  · intro hperm
    rw [map_append] at hperm
    have hrest : (X.map f).Perm (Y.map f) :=
      (perm_append_left_iff _).mp (hall.symm.trans hperm)
    have hnil : X.map f = [] := eq_nil_iff_forall_not_mem.mpr fun x hx =>
      hdisjoint x hx x (hrest.subset hx) rfl
    rw [hnil, nil_perm, map_eq_nil_iff] at hrest
    rw [map_eq_nil_iff.mp hnil, hrest, append_nil]
  · intro hnil
    obtain ⟨rfl, rfl⟩ := append_eq_nil_iff.mp hnil
    simpa using hall

theorem owned_append (s : State) (a b : List Name) : s.owned (a ++ b) = s.owned a ++ s.owned b :=
  filter_append ..

theorem flatMap_owned (s : State) (scopes : List (List Name)) :
    scopes.flatMap s.owned = s.owned scopes.flatten := by
  rw [State.owned, filter_flatten, flatMap_def]
  rfl

def unwound (inside : List Enclosure) (own : List Entry) (near : Option (List Enclosure)) :
    List (List Name) :=
  (near.map fun near => scopesOf [] (inside ++ .switch own :: near)).getD []

theorem nodup_lost (s : State) (hnames : ((namesOf (inside ++ .switch own :: near)).map Json.plain).Nodup) :
    ((s.owned (straysOf inside) ++ s.owned (Enclosure.switch own).locals).map Json.plain).Nodup := by
  have hperm : (namesOf (inside ++ .switch own :: near)).Perm
      ((localsOf inside ++ straysOf inside)
        ++ (((Enclosure.switch own).locals ++ (Enclosure.switch own).strays) ++ namesOf near)) := by
    rw [namesOf, flatMap_append, flatMap_cons]
    exact (perm_namesOf inside).append ((perm_locals_append_strays _).append_right _)
  have hlost : (s.owned (straysOf inside) ++ s.owned (Enclosure.switch own).locals).Sublist
      ((localsOf inside ++ straysOf inside)
        ++ (((Enclosure.switch own).locals ++ (Enclosure.switch own).strays) ++ namesOf near)) := by
    apply Sublist.append
    · exact filter_sublist.trans (sublist_append_right _ _)
    · rw [append_assoc]
      exact filter_sublist.trans (sublist_append_left _ _)
  exact ((hperm.map _).nodup_iff.mp hnames).sublist (hlost.map _)

theorem unwindsSwitch_iff (hinside : ∀ e ∈ inside, e.isScope = true)
    (hnames : ∀ es ∈ near, ((namesOf (inside ++ .switch own :: es)).map Json.plain).Nodup) :
    ((s.owned (unwound inside own near).flatten).map Json.plain).Perm
        ((s.owned (localsOf (inside ++ [.switch own]))).map Json.plain) ↔
      UnwindsSwitch s inside own near := by
  cases near with
  | none => simp [unwound, State.owned, UnwindsSwitch]
  | some near =>
    have hdistinct := Nodup.of_map _ (hnames near rfl)
    rw [UnwindsSwitch]
    split
    · next hnear =>
      have hall := (perm_scopes_of_scope hinside hdistinct hnear).filter
        fun name => !s.consumed.contains name
      rw [filter_append] at hall
      exact perm_map_iff_of_perm_append hall
    · next hnear =>
      rw [namesOf, flatMap_append] at hdistinct
      have hscopes : (scopesOf [] (inside ++ .switch own :: near)).flatten.Perm
          (localsOf inside ++ straysOf inside) :=
        perm_scopes_of_noScope hinside (nodup_append.mp hdistinct).1
          (Bool.eq_false_iff.mpr hnear)
      have hall := hscopes.filter fun name => !s.consumed.contains name
      rw [filter_append] at hall
      have hlocals : localsOf (inside ++ [.switch own]) =
          localsOf inside ++ (Enclosure.switch own).locals := by simp [localsOf]
      rw [hlocals, owned_append, owned_append]
      exact perm_map_iff_of_disjoint hall (nodup_lost s (hnames near rfl))

theorem inLoop_switch (hinside : ∀ e ∈ inside, e.isScope = true) : inLoop (inside ++ .switch own :: outside) =
      (inLoop outside).map fun near => inside ++ .switch own :: near := by
  have hloops : ∀ e ∈ inside, e.isLoop = false := by
    intro e he
    cases e with
    | loop => cases hinside _ he
    | _ => rfl
  rw [inLoop_append hloops]
  simp [inLoop, Enclosure.isLoop, Function.comp_def]

/-- Of the breaks that belong to a switch, those release the right variables that leave nothing
behind and find nothing else. -/
theorem break_releases_switch {s₀ : State} {inside outside : List Enclosure} {own : List Entry}
    (hscopes : s₀.scopes = []) (hloops : s₀.loops = [])
    (hreaches : Reaches env (.start k₀ params body s₀)
      ⟨k, .stmt depth n, s, inside ++ .switch own :: outside⟩)
    (hinside : ∀ e ∈ inside, e.isScope = true) (hkind : n.kind = "BreakStmt")
    (hnames : ∀ near ∈ inLoop outside,
      ((namesOf (inside ++ .switch own :: near)).map Json.plain).Nodup)
    (h : Yields ((level k).stmt depth n) env s code s') :
    (Code.released code).Perm ((s.owned (localsOf (inside ++ [.switch own]))).map Json.plain) ↔
      UnwindsSwitch s inside own (if code.any Code.isBreak then inLoop outside else none) := by
  have hmirrors := hreaches.mirrors (mirrors_start hscopes hloops)
  rw [written_of_break hkind h]
  split
  · rw [← unwindsSwitch_iff hinside hnames, hmirrors.scopesInLoop, flatMap_owned,
      inLoop_switch hinside, Option.map_map]
    rfl
  · have hnone : ∀ es ∈ (none : Option (List Enclosure)),
        ((namesOf (inside ++ .switch own :: es)).map Json.plain).Nodup := nofun
    exact unwindsSwitch_iff hinside hnone

/-- `while (c) { ... switch (c) { case K: { id y; break; } } }` -/
def switchInLoop (decls : List Node) : Node :=
  .bare "CompoundStmt" [.bare "WhileStmt" [.varRef "c" "int", .bare "CompoundStmt" (decls ++
    [.bare "SwitchStmt" [.varRef "c" "int", .bare "CompoundStmt"
      [.bare "CaseStmt" [.varRef "K" "int", .bare "CompoundStmt"
        [.varStmt "y" "id" [], .bare "BreakStmt" []]]]]])]]

theorem Step.first : Step env ⟨k, .stmts depth (n :: ns), s, around⟩
    ⟨k, .stmt depth n, s, extend [] around⟩ := by
  have hnone : Passes env k depth [] s [] s := .nil
  exact .stmts hnone

set_option maxRecDepth 4000 in
theorem reaches_caseBreak (hdecls : Passes .sample 8 2 decls { scopes := [[], []], loops := [1] } left
      { scopes := [names, []], loops := [1] }) :
    Reaches .sample (.start 9 [] (switchInLoop decls) {})
      ⟨5, .stmt 4 (.bare "BreakStmt" []), { scopes := [["y"], names, []], loops := [1] },
        [.scope [⟨"y", true⟩], .switch [], .scope left, .loop, .scope []]⟩ := by
  refine .head .first ?_
  refine .head (.stmt (t := { scopes := [[]] }) rfl) ?_
  refine .head (.loop (.whileLoop rfl rfl (t := { scopes := [[]] }) rfl)) ?_
  refine .head (.braces rfl) ?_
  refine .head .scope ?_
  refine .head (.stmts hdecls) ?_
  refine .head (.stmt (t := { scopes := [names, []], loops := [1] }) rfl) ?_
  refine .head (.switch rfl rfl rfl (t := { scopes := [names, []], loops := [1] }) rfl) ?_
  refine .head .first ?_
  refine .head (.stmt (t := { scopes := [names, []], loops := [1] }) rfl) ?_
  refine .head (.case rfl rfl (t := { scopes := [names, []], loops := [1] }) rfl) ?_
  refine .head .first ?_
  refine .head (.stmt (t := { scopes := [names, []], loops := [1] }) rfl) ?_
  refine .head (.block rfl) ?_
  refine .head .scope ?_
  have hy : Yields (lowerStmtKind (level 4) 4 (.varStmt "y" "id" [])) .sample
      { scopes := [[], names, []], loops := [1] } [.declare 4 "y" "struct OZObject * y"]
      { scopes := [["y"], names, []], loops := [1] } := rfl
  have hpass : Passes .sample 5 4 [.varStmt "y" "id" []] { scopes := [[], names, []], loops := [1] }
      [⟨"y", true⟩] { scopes := [["y"], names, []], loops := [1] } :=
    .declares (t := { scopes := [[], names, []], loops := [1] }) rfl rfl hy .nil
  exact .single (.stmts hpass)

theorem caseBreak_releases_caseBlock :
    ∃ m, Reaches .sample (.start 9 [] (switchInLoop []) {}) m ∧
      m.task = .stmt 4 (.bare "BreakStmt" []) ∧
      m.around = [.scope [⟨"y", true⟩]] ++ .switch [] :: [.scope [], .loop, .scope []] ∧
      Yields ((level m.level).stmt 4 (.bare "BreakStmt" [])) .sample m.state
        [.release 4 "OZObject" "y", .breaks 4] m.state ∧
      (Code.released [.release 4 "OZObject" "y", .breaks 4]).Perm
        ((m.state.owned (localsOf [.scope [⟨"y", true⟩], .switch []])).map Json.plain) := by
  have hreaches : Reaches .sample (.start 9 [] (switchInLoop []) {})
      ⟨5, .stmt 4 (.bare "BreakStmt" []), { scopes := [["y"], [], []], loops := [1] },
        [.scope [⟨"y", true⟩]] ++ .switch [] :: [.scope [], .loop, .scope []]⟩ :=
    reaches_caseBreak .nil
  have hbreak : Yields ((level 5).stmt 4 (.bare "BreakStmt" [])) .sample
      { scopes := [["y"], [], []], loops := [1] } [.release 4 "OZObject" "y", .breaks 4]
      { scopes := [["y"], [], []], loops := [1] } := rfl
  exact ⟨_, hreaches, rfl, rfl, hbreak,
    (break_releases_switch rfl rfl hreaches (by decide) rfl (by decide) hbreak).mpr rfl⟩

set_option maxRecDepth 4000 in
theorem caseBreak_releases_loopBlock :
    ∃ m, Reaches .sample (.start 9 [] (switchInLoop [.varStmt "x" "id" []]) {}) m ∧
      m.task = .stmt 4 (.bare "BreakStmt" []) ∧
      m.around = [.scope [⟨"y", true⟩], .switch [], .scope [⟨"x", true⟩], .loop, .scope []] ∧
      Yields ((level m.level).stmt 4 (.bare "BreakStmt" [])) .sample m.state
        [.release 4 "OZObject" "y", .release 4 "OZObject" "x", .breaks 4] m.state ∧
      ¬ (Code.released [.release 4 "OZObject" "y", .release 4 "OZObject" "x", .breaks 4]).Perm
        ((m.state.owned (localsOf [.scope [⟨"y", true⟩], .switch []])).map Json.plain) := by
  have hx : Yields (lowerStmtKind (level 7) 2 (.varStmt "x" "id" [])) .sample
      { scopes := [[], []], loops := [1] } [.declare 2 "x" "struct OZObject * x"]
      { scopes := [["x"], []], loops := [1] } := rfl
  have hpass : Passes .sample 8 2 [.varStmt "x" "id" []] { scopes := [[], []], loops := [1] }
      [⟨"x", true⟩] { scopes := [["x"], []], loops := [1] } :=
    .declares (t := { scopes := [[], []], loops := [1] }) rfl rfl hx .nil
  exact ⟨_, reaches_caseBreak hpass, rfl, rfl, rfl, by decide⟩

end Lowering

end ObjcLowering
