import ObjcLowering.Proofs.Lowering.Structured

/-! The order of reads and releases. -/

namespace ObjcLowering

namespace Code

def computed? : Code → Option String
  | .assign _ _ value => some value
  | .retain _ _ value => some value
  | .returns _ value => value
  | _ => none

def reads : Code → List String
  | .temp _ decl => [decl.text]
  | c => c.computed?.toList

def Mentions (c : Code) (v : String) : Prop := ∃ text ∈ c.reads, v ∈ Text.words text

/-- No statement reads a variable that has been released before it. -/
def ReadsFirst (code : List Code) : Prop :=
  code.Pairwise fun c d => ∀ v ∈ released [c], ¬ d.Mentions v

def ComputesFirst (code : List Code) (value v : String) : Prop :=
  ∃ before after, code = before ++ after ∧ v ∉ released before ∧
    ∃ c ∈ before, c.computed? = some value

end Code

namespace Lowering

open Ast List

variable {s s' t : State} {n e rhs : Node} {expr : Node → Lower String}

theorem not_mentions_of_releases {root v : String} (hc : c ∈ releases depth root names) : ¬ c.Mentions v := by
  obtain ⟨name, -, rfl⟩ := mem_map.mp hc
  rintro ⟨text, htext, -⟩
  cases htext

theorem notMem_released (hrest : Code.released rest = [])
    (hc : c ∈ rest) (v : String) : v ∉ Code.released [c] := by
  intro hv
  obtain ⟨before, after, rfl⟩ := append_of_mem hc
  rw [← singleton_append, Code.released_append, Code.released_append] at hrest
  simp only [append_eq_nil_iff] at hrest
  rw [hrest.2.1] at hv
  cases hv

theorem readsFirst_releases_append {root : String} (hrest : Code.released rest = []) :
    Code.ReadsFirst (releases depth root names ++ rest) ↔
      ∀ name ∈ names, ∀ c ∈ releases depth root names ++ rest, ¬ c.Mentions name.plain := by
  rw [Code.ReadsFirst, pairwise_append]
  constructor
  · rintro ⟨-, -, hacross⟩ name hname c hc
    rcases mem_append.mp hc with hc | hc
    · exact not_mentions_of_releases hc
    · exact hacross _ (mem_map_of_mem hname) c hc _ (.head _)
  · intro h
    refine ⟨?_, ?_, ?_⟩
    · refine pairwise_iff_forall_sublist.mpr fun hsub v _ => ?_
      exact not_mentions_of_releases (hsub.subset (.tail _ (.head _)))
    · refine pairwise_iff_forall_sublist.mpr fun hsub v hv => ?_
      exact absurd hv (notMem_released hrest (hsub.subset (.head _)) v)
    · intro c hc d hd v hv
      obtain ⟨name, hname, rfl⟩ := mem_map.mp hc
      rw [mem_singleton.mp hv]
      exact h name hname d (mem_append_right _ hd)

theorem readsFirst_return_iff (hinner : n.inner = e :: rest)
    (h : Yields (lowerReturn expr depth n) env s code s') :
    Code.ReadsFirst code ↔
      ∀ name, s.isTracked name = true → name ∉ s.consumed → (∃ c ∈ code, c.Mentions name.plain) →
        Denotes castKinds e name := by
  cases returned_of_yields h with
  | bare hnil => rw [hinner] at hnil; cases hnil
  | @value e' v _ var text t hinner' hvar _ _ =>
    rw [hinner] at hinner'
    cases hinner'
    have hrest : Code.released (temps depth t ++ [.returns depth (some text)]) = [] := by
      rw [Code.released_append, released_temps]
      rfl
    rw [append_assoc, readsFirst_releases_append hrest]
    constructor
    · rintro hsafe name htracked hconsumed ⟨c, hc, hmentions⟩
      by_cases hreturned : var = some name
      · rw [← returnedVar_eq_some, hvar, hreturned]
      · have hname := mem_ownedAtReturn.mpr ⟨isTracked_iff.mp htracked, hconsumed, hreturned⟩
        exact absurd hmentions (hsafe name hname c hc)
    · intro hsafe name hname c hc hmentions
      obtain ⟨htracked, hconsumed, hreturned⟩ := mem_ownedAtReturn.mp hname
      have hdenotes := hsafe name (isTracked_iff.mpr htracked) hconsumed ⟨c, hc, hmentions⟩
      rw [← returnedVar_eq_some, hvar] at hdenotes
      cases hdenotes
      exact hreturned rfl

def implicitKinds : List String := ["ImplicitCastExpr"]

theorem checkTracked_eq_true :
    s.checkTracked name = .ok true ↔ name.isKey = true ∧ s.isTracked name = true := by
  unfold State.checkTracked Json.asKey
  split
  · next hscopes =>
    rw [List.isEmpty_iff] at hscopes
    simp [State.isTracked, hscopes]
  · cases hkey : name.isKey with
    | true => exact ⟨fun h => ⟨rfl, by injection h⟩, fun h => congrArg Except.ok h.2⟩
    | false => exact ⟨fun h => (by cases h), fun h => (by cases h.1)⟩

def DenotesTracked (s : State) (e : Node) (name : Name) : Prop :=
  Denotes implicitKinds e name ∧ name.holds = true ∧ name ≠ "self" ∧ name.isKey = true ∧
    s.isTracked name = true

theorem trackedVar_eq_some : trackedVar? s e = .ok (some name) ↔ DenotesTracked s e name := by
  have hkinds : "DeclRefExpr" ∉ implicitKinds := by decide
  simp only [trackedVar?, DenotesTracked, ← checkTracked_eq_true]
  constructor
  · intro h
    split at h
    · cases h
    · next hkind =>
      simp only [bne_iff_ne, ne_eq, Decidable.not_not] at hkind
      obtain ⟨name', hname', h⟩ := bind_eq_ok.mp h
      split at h
      · cases h
      · next hnamed =>
        obtain ⟨tracked, htracked, h⟩ := bind_eq_ok.mp h
        obtain ⟨d, hd, hname⟩ := bind_eq_ok.mp hname'
        rw [pure_eq_ok] at h hname
        cases tracked with
        | false => cases h
        | true =>
          cases h
          simp only [Bool.or_eq_true, Bool.not_eq_true', beq_iff_eq, not_or] at hnamed
          obtain ⟨hholds, hself⟩ := hnamed
          rw [Bool.not_eq_false] at hholds
          refine ⟨⟨_, d, Node.wraps_unwrap implicitKinds e, hkind, hd, ?_, ?_⟩, hholds, hself,
            htracked⟩
          · cases hd' : d.name with
            | none =>
              rw [hd'] at hname
              rw [← hname] at hholds
              cases hholds
            | some name' =>
              rw [hd'] at hname
              exact congrArg some hname
          · rintro rfl
            cases hholds
  · rintro ⟨⟨m, d, hwraps, hkind, hd, hname, hnull⟩, hholds, hself, htracked⟩
    have hunwrap : e.belowCasts = m := hwraps.unwrap_eq (by rw [hkind]; exact hkinds)
    have href : m.referencedName = .ok name := by
      rw [Node.referencedName, hd]
      simp [hname, bind, Except.bind, pure, Except.pure]
    have hnamed : (!name.holds || name == "self") = false := by simp [hholds, hself]
    rw [hunwrap, hkind, if_neg (by simp), href]
    simp only [bind, Except.bind, hnamed, htracked]
    rfl

def Mentions (e : Node) (name : Name) : Prop :=
  ∃ m ∈ e.preorder, ∃ d, m.kind = "DeclRefExpr" ∧ m.attrs.referencedDecl.get = .ok d ∧
    d.name = some name

theorem computed_temps (hc : c ∈ temps depth s) : c.computed? = none := by
  obtain ⟨decl, -, rfl⟩ := mem_map.mp hc
  rfl

theorem computesFirst_assign {root value v : String} :
    Code.ComputesFirst (temps depth t ++ (if retained then [.retain depth root value] else [])
      ++ [.release depth root v, .assign depth v value]) value v ↔ retained = true := by
  constructor
  · rintro ⟨before, after, hcode, hreleased, c, hc, hcomputed⟩
    cases retained with
    | true => rfl
    | false =>
      have htemp : c ∉ temps depth t := fun hc => by
        rw [computed_temps hc] at hcomputed
        cases hcomputed
      simp only [Bool.false_eq_true, if_false, append_nil] at hcode
      rcases append_eq_append_iff.mp hcode with ⟨front, rfl, hrest⟩ | ⟨back, hback, -⟩
      · cases front with
        | nil => exact absurd (by simpa using hc) htemp
        | cons d front =>
          rw [cons_append, cons.injEq] at hrest
          rw [← hrest.1] at hreleased
          exact absurd (by simp [Code.released]) hreleased
      · exact absurd (hback ▸ mem_append_left _ hc) htemp
  · rintro rfl
    refine ⟨temps depth t ++ [.retain depth root value], _, rfl, ?_, .retain depth root value,
      by simp, rfl⟩
    rw [Code.released_append, released_temps]
    exact not_mem_nil

theorem yields_unique (h : Yields a env s r t) (h' : Yields a env s r' t') : r = r' ∧ t = t' := by
  have heq := h.symm.trans h'
  cases heq
  exact ⟨rfl, rfl⟩

theorem strongIvar_of_denotes (h : Denotes implicitKinds e name) : strongIvar? cls e = .ok none := by
  obtain ⟨m, d, hwraps, hkind, -⟩ := h
  have hunwrap : e.belowCasts = m := hwraps.unwrap_eq (by rw [hkind]; decide)
  simp only [strongIvar?, hunwrap, hkind]
  rfl

theorem assign_of_yields (hkind : n.kind = "BinaryOperator")
    (hop : n.opcode = "=") (h : Yields (lowerStmtKind below depth n) env s code s') :
    Yields (lowerAssign below depth n) env s code s' := by
  have hop' : (n.opcode == "=") = true := by simp [hop]
  simpa only [lowerStmtKind, hkind, hop', if_true] using h

theorem assignLocal_of_yields (hinner : n.inner = [lhs, rhs]) (hvar : DenotesTracked s lhs var)
    (h : Yields (lowerAssign below depth n) env s code s') :
    Yields (assignLocal below.expr depth var rhs) env s code s' := by
  replace h := yields_bind_children h
  rw [hinner] at h
  obtain ⟨ivar, hivar, h⟩ := yields_liftM_bind.mp (yields_read_bind.mp h)
  rw [strongIvar_of_denotes hvar.1] at hivar
  cases hivar
  obtain ⟨var', hvar', h⟩ := yields_liftM_bind.mp (yields_get_bind.mp h)
  rw [trackedVar_eq_some.mpr hvar] at hvar'
  cases hvar'
  exact h

theorem isSome_trackedVar (hexpr : stacksFrame.Keeps (expr e)) (hvalue : Yields (expr e) env s text t)
    (h : trackedVar? t.flushed e = .ok tracked) :
    tracked.isSome = true ↔ ∃ y, DenotesTracked s e y := by
  have hscopes : t.flushed.scopes = s.scopes := (hexpr _ _ _ _ hvalue).1
  have hdenotes : ∀ y, DenotesTracked t.flushed e y ↔ DenotesTracked s e y := by
    intro y
    rw [DenotesTracked, DenotesTracked, State.isTracked, State.isTracked, hscopes]
  rw [Option.isSome_iff_exists]
  constructor
  · rintro ⟨y, rfl⟩
    exact ⟨y, (hdenotes y).mp (trackedVar_eq_some.mp h)⟩
  · rintro ⟨y, hy⟩
    rw [trackedVar_eq_some.mpr ((hdenotes y).mpr hy)] at h
    cases h
    exact ⟨y, rfl⟩

theorem computesFirst_assign_iff
    (hexpr : stacksFrame.Keeps (expr rhs)) (hvalue : Yields (expr rhs) env s text t)
    (h : Yields (assignLocal expr depth var rhs) env s code s') :
    Code.ComputesFirst code text var.plain ↔ ∃ y, DenotesTracked s rhs y := by
  obtain ⟨text', t', tracked, hvalue', htracked, rfl, rfl⟩ := yields_assignLocal.mp h
  obtain ⟨rfl, rfl⟩ := yields_unique hvalue hvalue'
  rw [computesFirst_assign, isSome_trackedVar hexpr hvalue htracked]

/-- When a statement reads before it releases. A return must read no owned variable but the one that
it returns; an assignment must not mention its variable, unless its value is a tracked variable. -/
theorem reads_before_releases (h : Yields (lowerStmtKind (level k) depth n) env s code s') :
    (∀ e rest, n.kind = "ReturnStmt" → n.inner = e :: rest →
      (Code.ReadsFirst code ↔
        ∀ name, s.isTracked name = true → name ∉ s.consumed →
          (∃ c ∈ code, c.Mentions name.plain) → Denotes castKinds e name)) ∧
    ∀ lhs rhs var text t, n.kind = "BinaryOperator" → n.opcode = "=" → n.inner = [lhs, rhs] →
      DenotesTracked s lhs var → Yields ((level k).expr rhs) env s text t →
      ((Mentions rhs var → Code.ComputesFirst code text var.plain) ↔
        (Mentions rhs var → ∃ y, DenotesTracked s rhs y)) := by
  constructor
  · intro e rest hkind hinner
    simp only [lowerStmtKind, hkind] at h
    exact readsFirst_return_iff hinner h
  · intro lhs rhs var text t hkind hop hinner hvar hvalue
    have hassign := assignLocal_of_yields hinner hvar (assign_of_yields hkind hop h)
    rw [computesFirst_assign_iff (level_expr_keeps_stacks k rhs) hvalue hassign]

/-- `use(x)` -/
def useOf (name : String) : Node := .bare "CallExpr" [.varRef "use" "int (id)", .varRef name "id"]

def assignTo (place value : Node) : Node :=
  .mk { kind := "BinaryOperator", opcode := some "=" } [place, value]

theorem denotes_varRef (kinds : List String) (name type : String) :
    Denotes kinds (.varRef name type) (.text name) :=
  ⟨_, _, .refl _, rfl, rfl, rfl, nofun⟩

theorem denotesTracked_varRef (hholds : (Json.text name).holds = true)
    (hself : name ≠ "self") (htracked : s.isTracked (.text name) = true) :
    DenotesTracked s (.varRef name type) (.text name) :=
  ⟨denotes_varRef _ _ _, hholds, fun h => hself (Json.text.inj h), rfl, htracked⟩

set_option maxRecDepth 4000 in
/-- `return x;` and `x = x;` -/
theorem variable_reads_before_releases :
    Code.ReadsFirst [.release 1 "OZObject" "y", .returns 1 (some "x")] ∧
      Code.ComputesFirst
        [.retain 1 "OZObject" "x", .release 1 "OZObject" "x", .assign 1 "x" "x"] "x" "x" := by
  have hreturn : Yields (lowerStmtKind (level 3) 1 (.bare "ReturnStmt" [.varRef "x" "id"])) .sample
      { scopes := [["x", "y"]] } [.release 1 "OZObject" "y", .returns 1 (some "x")]
      { scopes := [["x", "y"]] } := rfl
  have hassign : Yields (lowerStmtKind (level 3) 1 (assignTo (.varRef "x" "id") (.varRef "x" "id"))) .sample
      { scopes := [["x", "y"]] }
      [.retain 1 "OZObject" "x", .release 1 "OZObject" "x", .assign 1 "x" "x"]
      { scopes := [["x", "y"]] } := rfl
  constructor
  · refine ((reads_before_releases hreturn).1 _ _ rfl rfl).mpr fun name htracked _ hmentions => ?_
    have hname : name = "x" ∨ name = "y" := by simpa [State.isTracked] using htracked
    rcases hname with rfl | rfl
    · exact denotes_varRef _ _ _
    · have hnone : ¬ ∃ c ∈ [Code.release 1 "OZObject" "y", .returns 1 (some "x")],
          c.Mentions "y" := by
        unfold Code.Mentions
        decide +kernel
      exact absurd hmentions hnone
  · have htracked : DenotesTracked { scopes := [["x", "y"]] } (.varRef "x" "id") "x" :=
      denotesTracked_varRef rfl (by decide) rfl
    refine ((reads_before_releases hassign).2 _ _ "x" "x" _ rfl rfl rfl htracked rfl).mpr
      (fun _ => ⟨"x", htracked⟩) ⟨.varRef "x" "id", ?_⟩
    exact ⟨.head _, _, rfl, rfl, rfl⟩

set_option maxRecDepth 4000 in
/-- `return use(x);` and `x = use(x);` -/
theorem call_reads_after_release :
    Yields (lowerStmtKind (level 3) 1 (.bare "ReturnStmt" [useOf "x"])) .sample
        { scopes := [["x"]] } [.release 1 "OZObject" "x", .returns 1 (some "use(x)")]
        { scopes := [["x"]] } ∧
      ¬ Code.ReadsFirst [.release 1 "OZObject" "x", .returns 1 (some "use(x)")] ∧
      Yields (lowerStmtKind (level 3) 1 (assignTo (.varRef "x" "id") (useOf "x"))) .sample { scopes := [["x"]] }
        [.release 1 "OZObject" "x", .assign 1 "x" "use(x)"] { scopes := [["x"]] } ∧
      Mentions (useOf "x") "x" ∧
      ¬ Code.ComputesFirst [.release 1 "OZObject" "x", .assign 1 "x" "use(x)"] "use(x)" "x" := by
  have hmentions : Mentions (useOf "x") "x" :=
    ⟨.varRef "x" "id", Node.mem_preorder_of_inner (.tail _ (.head _)), _, rfl, rfl, rfl⟩
  have hcomputes : Code.ComputesFirst (temps 1 {} ++ (if false then
        [.retain 1 "OZObject" "use(x)"] else []) ++
      [.release 1 "OZObject" "x", .assign 1 "x" "use(x)"]) "use(x)" "x" ↔ false = true :=
    computesFirst_assign
  refine ⟨rfl, fun h => ?_, rfl, hmentions, fun h => absurd (hcomputes.mp h) (by decide)⟩
  exact (pairwise_cons.mp h).1 _ (.head _) "x" (.head _)
    ⟨"use(x)", .head _, by decide +kernel⟩

end Lowering

end ObjcLowering
