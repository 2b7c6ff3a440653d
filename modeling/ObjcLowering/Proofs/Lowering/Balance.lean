import ObjcLowering.Lowering.Functions
import ObjcLowering.Proofs.Lowering.Leaves
import ObjcLowering.Proofs.Lowering.StatementFrames
import ObjcLowering.Proofs.Tables

/-!
Balance of references in structured bodies: on every path each variable that owns its object is released
once, but for the one that a return hands out.
-/

namespace ObjcLowering.Lowering

open Ast Code Behavior Standing List

variable {nodes : List Node} {s s' : State}

structure Within (W : String → Prop) (nodes : List Node) (n : Node) : Prop where
  nodes : n.preorder ⊆ nodes
  watched : ∀ d ∈ n.locals, Watched W d

def Balanced (W : String → Prop) (nodes : List Node) (env : Env)
    (lower : Nat → Node → Lower (List Code)) (n : Node) : Prop :=
  ∀ depth s code s', Tidy s (localNames n) → Yields (lower depth n) env s code s' →
    Piece W nodes env [] s code s'

structure Sound (W : String → Prop) (nodes : List Node) (env : Env) (below : Below) : Prop where
  expr : ∀ n : Node, n.preorder ⊆ nodes → ownershipFrame.Keeps (below.expr n)
  stmt : ∀ n, Structured n → Within W nodes n → Balanced W nodes env below.stmt n
  branch : ∀ n, Structured n → n.kind = "IfStmt" → Within W nodes n →
    Balanced W nodes env below.branch n
  decl : ∀ n, n.kind = "DeclStmt" → Unexpanded n → (∀ d ∈ n.locals, isShared d = false) →
    Within W nodes n → ∀ depth s code s', s.Inside → Tidy s (localNames n) →
    Yields (below.stmt depth n) env s code s' →
    ∃ a, a.Sublist (localNames n) ∧ Piece W nodes env a s code s'
  returns : ∀ n, n.kind = "ReturnStmt" → Unexpanded n → ∀ depth s code s',
    Yields (below.stmt depth n) env s code s' → ∀ t o, ¬ pathsAll code t o .next

theorem Within.of_mem (h : Within W nodes n) (hkind : n.kind ∈ Node.compositeKinds)
    (hm : m ∈ n.inner) : Within W nodes m := by
  constructor
  · exact fun l hl => h.nodes (Node.preorder_subset_of_inner hm hl)
  · intro d hd
    apply h.watched
    rw [Node.locals_of_composite hkind]
    exact (Node.locals_sublist_of_mem hm).subset hd

theorem Sound.keeps_expr (hb : Sound W nodes env below) (h : Within W nodes n) (hm : m ∈ n.inner) :
    ownershipFrame.Keeps (below.expr m) :=
  hb.expr m fun _ hl => h.nodes (Node.preorder_subset_of_inner hm hl)

theorem localNames_sublist (hkind : n.kind ∈ Node.compositeKinds) (hm : m ∈ n.inner) :
    (localNames m).Sublist (localNames n) := by
  rw [localNames, localNames, Node.locals_of_composite hkind]
  exact (Node.locals_sublist_of_mem hm).map declaredName

theorem flatMap_localNames (hkind : n.kind ∈ Node.compositeKinds) :
    n.inner.flatMap localNames = localNames n := by
  rw [localNames, Node.locals_of_composite hkind]
  induction n.inner with
  | nil => rfl
  | cons m ns ih => rw [flatMap_cons, ih, Node.localsAll, map_append, localNames]

theorem Structured.unexpanded (h : Structured n) : Unexpanded n := by
  cases h <;> assumption

theorem Structured.of_block (h : Structured n) (hkind : n.kind = "CompoundStmt") :
    (∀ m ∈ n.inner, m.kind = "DeclStmt" → Unexpanded m ∧ ∀ d ∈ m.locals, isShared d = false) ∧
      ∀ m ∈ n.inner, m.kind ≠ "DeclStmt" → Structured m := by
  cases h with
  | block _ _ hdecl hstmt => exact ⟨hdecl, hstmt⟩
  | expr hplain => exact absurd (by rw [hkind]; decide) hplain.1
  | jump hjump => simp [hkind] at hjump
  | _ hother => exact absurd (hkind.symm.trans hother) (by decide)

theorem endsInReturn_cons : endsInReturn (m :: n :: ns) = endsInReturn (n :: ns) := by
  rw [endsInReturn, endsInReturn, getLast?_cons_cons]

theorem OpensScope.tidy (hu : OpensScope s u) (h : Tidy s names) : Tidy u names := by
  refine h.of_scopes hu.consumed (by rw [hu.scopes]; rfl) hu.locks ?_
  rw [hu.scopes, hu.loops]
  exact fun outside hin => Nat.le_succ_of_le (h.loops outside hin)

theorem OpensScope.inside (hu : OpensScope s u)
    (hloops : ∀ outside ∈ s.loops, outside ≤ s.scopes.length) : u.Inside :=
  ⟨[], s.scopes, hu.scopes, hu.loops ▸ hloops⟩

theorem Tidy.openLoop (h : Tidy s names) (hu : OpensLoop s u)
    (hconsumed : u.consumed = s.consumed) (hlocks : u.locks = s.locks) : Tidy u names := by
  refine h.of_scopes hconsumed (by rw [hu.1]) hlocks.ge ?_
  rw [hu.1, hu.2]
  exact forall_mem_cons.mpr ⟨Nat.le_refl _, h.loops⟩

section Blocks

variable (hb : Sound W nodes env below)
include hb

theorem not_next_of_endsInReturn
    (hns : ∀ n ∈ ns, n.kind = "ReturnStmt" → Unexpanded n) (hreturn : endsInReturn ns = true)
    (h : Yields (lowerAll (below.stmt depth) ns) env s code s') (t : List Event)
    (o : List String) : ¬ pathsAll code t o .next := by
  induction ns generalizing s code t o with
  | nil => cases hreturn
  | cons n ns ih =>
    obtain ⟨c, u, d, hn, hrest, rfl⟩ := yields_lowerAll_cons.mp h
    intro hpath
    cases pathsAll_append.mp hpath with
    | left _ hx => exact hx rfl
    | both hc hd =>
      cases ns with
      | nil =>
        have hkind : n.kind = "ReturnStmt" := by simpa [endsInReturn] using hreturn
        exact hb.returns n hkind (hns n (by simp) hkind) _ _ _ _ hn _ _ hc
      | cons m ns =>
        rw [endsInReturn_cons] at hreturn
        exact ih (fun l hl => hns l (by simp [hl])) hreturn hrest _ _ hd

theorem endsScope_of_exitCode
    (hns : ∀ n ∈ ns, n.kind = "ReturnStmt" → Unexpanded n) (hkept : s'.consumed = [])
    (h : Yields (lowerAll (below.stmt depth) ns) env s code s') :
    EndsScope code s' (exitCode depth env.root s' ns) := by
  unfold exitCode
  split
  · next hreturn => exact .inr ⟨rfl, not_next_of_endsInReturn hb hns hreturn h⟩
  · rw [owned_of_kept hkept]
    exact .inl ⟨depth, env.root, rfl⟩

variable (hn : Structured n) (hwithin : Within W nodes n) (htidy : Tidy s (localNames n))
include hn hwithin htidy

theorem piece_of_statements (hkind : n.kind = "CompoundStmt") (hs : s.Inside)
    (h : Yields (lowerAll (below.stmt depth) n.inner) env s code s') :
    ∃ a, Piece W nodes env a s code s' ∧ Tidy s' [] ∧
      EndsScope code s' (exitCode depth env.root s' n.inner) := by
  have hcomposite : n.kind ∈ Node.compositeKinds := by rw [hkind]; decide
  obtain ⟨hdecl, hstmt⟩ := hn.of_block hkind
  have hstep : ∀ m ∈ n.inner, ∀ s code s', s.Inside → Tidy s (localNames m) →
      Yields (below.stmt depth m) env s code s' →
      ∃ a, a.Sublist (localNames m) ∧ Piece W nodes env a s code s' := by
    intro m hm s code s' hs htidy h
    have hm' : Within W nodes m := hwithin.of_mem hcomposite hm
    by_cases hmkind : m.kind = "DeclStmt"
    · obtain ⟨hunexpanded, hshared⟩ := hdecl m hm hmkind
      exact hb.decl m hmkind hunexpanded hshared hm' depth s code s' hs htidy h
    · exact ⟨[], nil_sublist _, hb.stmt m (hstmt m hm hmkind) hm' depth s code s' htidy h⟩
  rw [← flatMap_localNames hcomposite] at htidy
  obtain ⟨a, ha, hpiece⟩ := piece_of_lowerAll hstep hs htidy h
  have htidy' : Tidy s' [] := by
    rw [← append_nil (n.inner.flatMap localNames)] at htidy
    exact htidy.grow ha hpiece
  refine ⟨a, hpiece, htidy', endsScope_of_exitCode hb (fun m hm hreturn => ?_) htidy'.kept h⟩
  exact (hstmt m hm (by rw [hreturn]; decide)).unexpanded

theorem piece_of_lowerScope (hkind : n.kind = "CompoundStmt")
    (h : Yields (lowerScope below depth [] n) env s code s') :
    Piece W nodes env [] s [.block k code] s' := by
  have hopens : OpensScope s (s.entered []) := ⟨rfl, rfl, rfl, Nat.le_refl _⟩
  obtain ⟨body, t, hbody, rfl, rfl⟩ := entered_of_yields h
  obtain ⟨a, hpiece, htidy', hends⟩ :=
    piece_of_statements hb hn hwithin (hopens.tidy htidy) hkind (hopens.inside htidy.loops) hbody
  exact hpiece.braces hopens htidy.loops htidy' hends

theorem piece_of_lowerBraced (h : Yields (lowerBraced below depth n) env s code s') :
    Piece W nodes env [] s [.block k code] s' := by
  unfold lowerBraced at h
  split at h
  · next hkind => exact piece_of_lowerScope hb hn hwithin htidy hkind h
  · exact (hb.stmt n hn hwithin _ _ _ _ htidy h).braces_of_closed

end Blocks

/-! ### Parts of composite statements -/

section Parts

variable (hb : Sound W nodes env below) (hwithin : Within W nodes n)
include hb hwithin

theorem Sound.frame_flushed (hm : m ∈ n.inner) (h : Yields (below.expr m) env s text t) :
    ownershipFrame.rel s t.flushed :=
  ownershipFrame.trans (hb.keeps_expr hwithin hm _ _ _ _ h) (flushed_frame t)

variable (hkind : n.kind ∈ Node.compositeKinds) (htidy : Tidy s (localNames n))
include hkind htidy

theorem piece_of_loop (hm : m ∈ n.inner) (hn : Structured m) (hframe : ownershipFrame.rel s u)
    (hc : ∀ t o x, paths c t o x → ∃ tested, Loop (Scoped (pathsAll code)) tested t o x)
    (h : Yields (lowerLoopBody below depth m) env u code s') : Piece W nodes env [] s [c] s' := by
  obtain ⟨t, hbody, rfl⟩ := yields_lowerLoopBody.mp h
  have hopens : OpensLoop u { u with loops := u.scopes.length :: u.loops } := ⟨rfl, rfl⟩
  have htidy' := (htidy.sub (localNames_sublist hkind hm)).congr hframe
  have hpiece := piece_of_lowerBraced (k := 0) hb hn (hwithin.of_mem hkind hm)
    (htidy'.openLoop hopens rfl rfl) hbody
  refine Piece.congr hframe (u := u) ?_ (ownershipFrame.refl _)
  refine ⟨hpiece.scopes, ?_, hpiece.consumed, hpiece.locks, fun t o x hpath _ => ?_⟩
  · exact congrArg tail hpiece.loops
  · obtain ⟨tested, hloop⟩ := hc t o x (pathsAll_singleton.mp hpath)
    exact meets_of_loop hopens hpiece hloop

end Parts

theorem Piece.tidy (h : Piece W nodes env [] s c s') (htidy : Tidy s names) : Tidy s' names := by
  rw [← nil_append names] at htidy
  exact htidy.grow (Sublist.refl _) h

def elseCode (form : Form) (no : List Code) : List Code :=
  match form with
  | .absent => []
  | .braced => [.block 0 no]
  | .chained => no

theorem Piece.branch {cond : String} (hyes : Piece W nodes env [] s [.block k yes] s₁)
    (hno : Piece W nodes env [] s₁ (elseCode form' no) s') :
    Piece W nodes env [] s [.branch depth cond form yes form' no] s' := by
  have hscopes : s₁.scopes = s.scopes := by rw [hyes.scopes, growScopes_nil]
  constructor
  · rw [hno.scopes, hscopes]
  · rw [hno.loops, hyes.loops]
  · rw [hno.consumed, hyes.consumed]
  · exact Nat.le_trans hyes.locks hno.locks
  · intro t o x hpath hallows
    cases pathsAll_singleton.mp hpath with
    | inl hpath => exact hyes.paths t o x (pathsAll_block.mpr hpath) hallows
    | inr hpath =>
      have helse : pathsAll (elseCode form' no) t o x := by
        cases form' with
        | absent => exact hpath
        | braced => exact pathsAll_block.mpr hpath
        | chained => exact hpath
      obtain ⟨out, hout, hmeets⟩ := hno.paths t o x helse (by rwa [State.Allows, hyes.loops])
      exact ⟨out, hout, fun v hv => (hmeets v hv).congr hscopes.symm hyes.loops.symm⟩

theorem Structured.of_branch (h : Structured n) (hkind : n.kind = "IfStmt") :
    ∃ cond yes rest, n.inner = cond :: yes :: rest ∧ (∀ m ∈ yes :: rest, m.isNull = false) ∧
      ∀ m ∈ yes :: rest, Structured m := by
  cases h with
  | branch _ _ hinner hnull hparts => exact ⟨_, _, _, hinner, hnull, hparts⟩
  | expr hplain => exact absurd (by rw [hkind]; decide) hplain.1
  | jump hjump => simp [hkind] at hjump
  | _ hother => exact absurd (hkind.symm.trans hother) (by decide)

theorem lockName_injective (h : lockName k = lockName l) : k = l := by
  have hnumber : ∀ m : Nat, "_sync" ++ toString m ≠ "_sync" := by
    intro m hm
    have hlength := congrArg String.length hm
    simp at hlength
  unfold lockName at h
  split at h
  · split at h
    · omega
    · exact absurd h.symm (hnumber l)
  · split at h
    · exact absurd h (hnumber k)
    · apply toString_injective
      simpa using h

theorem lockName_ne (h : u.toList.head? ≠ some '_') : lockName k ≠ u := by
  rintro rfl
  apply h
  unfold lockName
  split <;> simp

structure OpensLock (s u : State) : Prop where
  scopes : u.scopes = [.text (lockName (s.locks + 1))] :: s.scopes
  loops : u.loops = s.loops
  consumed : u.consumed = s.consumed
  locks : u.locks = s.locks + 1

namespace OpensLock

theorem notMem (htidy : Tidy s names) :
    Json.text (lockName (s.locks + 1)) ∉ s.scopes.flatten ++ names := by
  intro hmem
  have hle := htidy.locks _ hmem
  omega

theorem tidy (hu : OpensLock s u) (htidy : Tidy s names) : Tidy u names := by
  constructor
  · rw [hu.consumed, htidy.kept]
  · rw [hu.scopes]
    intro name hname
    cases hname with
    | head => rfl
    | tail _ hname => exact htidy.texts name hname
  · rw [hu.scopes]
    exact nodup_cons.mpr ⟨notMem htidy, htidy.distinct⟩
  · rw [hu.scopes, hu.locks]
    intro k hk
    cases hk' : decide (lockName k = lockName (s.locks + 1)) with
    | true => exact Nat.le_of_eq (lockName_injective (of_decide_eq_true hk'))
    | false =>
      have hne : Json.text (lockName k) ≠ Json.text (lockName (s.locks + 1)) := by
        intro h
        exact of_decide_eq_false hk' (Json.text.inj h)
      exact Nat.le_succ_of_le (htidy.locks k (mem_of_ne_of_mem hne hk))
  · rw [hu.scopes, hu.loops]
    exact fun outside hin => Nat.le_succ_of_le (htidy.loops outside hin)

theorem piece (hu : OpensLock s u) (htidy : Tidy s names) :
    Piece W nodes env [.text (lockName (s.locks + 1))] { u with scopes := [] :: s.scopes }
      [.declare depth (lockName (s.locks + 1)) text] u := by
  refine ⟨hu.scopes, rfl, rfl, Nat.le_refl _, fun t o x hpath _ => ?_⟩
  obtain ⟨rfl, rfl, rfl⟩ := pathsAll_declaration env.root false hpath
  refine ⟨none, .onward (by simp), fun v _ => Meets.declaration false ?_ ?_ ?_⟩
  · have hfresh := notMem htidy
    simpa [State.isHeld] using fun h => hfresh (mem_append_left _ h)
  · exact Subset.refl _
  · exact fun _ => mem_singleton.mpr rfl

end OpensLock

theorem EndsScope.append (h : EndsScope d s exit) : EndsScope (c ++ d) s exit := by
  cases h with
  | inl h => exact .inl h
  | inr h =>
    refine .inr ⟨h.1, fun t o hpath => ?_⟩
    cases pathsAll_append.mp hpath with
    | both _ hd => exact h.2 _ _ hd
    | left _ hx => exact hx rfl

theorem forBody_eq_getLast {ns : List Node} (h : ns.length ≤ 5) :
    (if ns.length > 4 then ns[4]? else ns.getLast?) = ns.getLast? := by
  split
  · have hlast : ns.length - 1 = 4 := by omega
    rw [getLast?_eq_getElem?, hlast]
  · rfl

/-! ### All statements -/

section Statements

variable (hb : Sound W nodes env below) (hwithin : Within W nodes n) (htidy : Tidy s (localNames n))
include hb hwithin htidy

theorem piece_of_lowerFor {init body : Node}
    (hkind : n.kind = "ForStmt") (hinner : n.inner = init :: rest) (hlength : n.inner.length ≤ 5)
    (hlast : n.inner.getLast? = some body) (hnull : body.isNull = false) (hbody : Structured body)
    (h : Yields (lowerFor below depth n) env s code s') : Piece W nodes env [] s code s' := by
  have hhead : ∀ i, ownershipFrame.Keeps (headPart below.expr n.inner[i]?) := fun i =>
    keeps_headPart fun m hm => hb.keeps_expr hwithin (mem_of_getElem? hm)
  have hinit : ownershipFrame.Keeps (initPart below.expr init) := keeps_initPart fun m hm =>
    hb.expr m fun l hl => hwithin.nodes (Node.preorder_subset_of_inner (by simp [hinner])
      (Node.preorder_subset_of_preorder init hm hl))
  have hcomposite : n.kind ∈ Node.compositeKinds := by rw [hkind]; decide
  have hmem : body ∈ n.inner := mem_of_getLast? hlast
  replace h := yields_bind_children h
  cases rest with
  | nil =>
    rw [hinner] at h
    obtain ⟨rfl, rfl⟩ := yields_pure.mp h
    exact Piece.skip (ownershipFrame.refl _) fun t o x hpath => hpath
  | cons second rest =>
    rw [hinner] at h hhead hlast hlength
    simp only [yields_bind, yields_flush] at h
    rw [forBody_eq_getLast hlength, hlast] at h
    obtain ⟨_, t₁, h₁, _, t₂, h₂, _, t₃, h₃, _, _, ⟨rfl, rfl⟩, h⟩ := h
    have hframe : ownershipFrame.rel s t₃.flushed := ownershipFrame.trans
      (ownershipFrame.trans (hinit _ _ _ _ h₁) (ownershipFrame.trans (hhead _ _ _ _ _ h₂)
        (hhead _ _ _ _ _ h₃))) (flushed_frame t₃)
    simp only [Option.filter, hnull, Bool.not_false, if_true, yields_bind, yields_pure] at h
    obtain ⟨inside, u, hu, rfl, rfl⟩ := h
    refine Piece.temps_append (piece_of_loop hb hwithin hcomposite htidy hmem hbody hframe ?_ hu)
    exact fun t o x hpath => ⟨true, hpath⟩

theorem piece_of_branchStep (hn : Structured n) (hkind : n.kind = "IfStmt")
    (h : Yields (branchStep below depth n) env s code s') : Piece W nodes env [] s code s' := by
  have hcomposite : n.kind ∈ Node.compositeKinds := by rw [hkind]; decide
  obtain ⟨cond, yes, rest, hinner, hnull, hparts⟩ := hn.of_branch hkind
  have hpart : ∀ m ∈ yes :: rest, m ∈ n.inner := fun m hm => by rw [hinner]; exact .tail _ hm
  have hwithin' := fun m hm => hwithin.of_mem hcomposite (hpart m hm)
  cases loweredBranch_of_yields h with
  | nothing hnone => rw [hinner] at hnone; cases hnone
  | @parts _ _ other text _ _ _ _ t u _ hinner' hother htext hyes hno =>
    cases hinner.symm.trans hinner'
    have hframe := hb.frame_flushed hwithin (by simp [hinner]) htext
    have htidy' : ∀ m ∈ yes :: rest, Tidy t.flushed (localNames m) := fun m hm =>
      (htidy.sub (localNames_sublist hcomposite (hpart m hm))).congr hframe
    have hmem : ∀ m ∈ other, m ∈ yes :: rest := by
      intro m hm
      rw [hother] at hm
      split at hm
      · exact .tail _ (mem_of_mem_head? (Option.filter_eq_some_iff.mp hm).1)
      · cases hm
    rw [head?_cons, Option.filter_some_pos (by simp [hnull yes])] at hyes
    cases hyes with
    | braced hyes =>
      have hyes : Piece W nodes env [] t.flushed [.block 0 _] u :=
        piece_of_lowerBraced hb (hparts yes (.head _)) (hwithin' yes (.head _)) (htidy' yes (.head _)) hyes
      refine (hyes.branch ?_).temps_append.congr hframe (ownershipFrame.refl _)
      cases hno with
      | absent => exact Piece.skip (ownershipFrame.refl _) fun t o x hpath => hpath
      | @braced c _ _ _ hno =>
        have hc := hmem c rfl
        exact piece_of_lowerBraced hb (hparts c hc) (hwithin' c hc) (hyes.tidy (htidy' c hc)) hno
      | @chained c _ _ hkind hno =>
        have hc := hmem c rfl
        exact hb.branch c (hparts c hc) hkind (hwithin' c hc) _ _ _ _ (hyes.tidy (htidy' c hc)) hno

theorem piece_of_lowerSynchronized (hkind : n.kind = "ObjCAtSynchronizedStmt")
    (hinner : n.inner = object :: body :: rest) (hbkind : body.kind = "CompoundStmt")
    (hbody : Structured body) (h : Yields (lowerSynchronized below depth n) env s code s') :
    Piece W nodes env [] s code s' := by
  have hcomposite : n.kind ∈ Node.compositeKinds := by rw [hkind]; decide
  have hmem : body ∈ n.inner := by simp [hinner]
  cases lowered_of_synchronized hkind h with
  | @lock _ _ _ text t _ _ _ hinner' htext hlocked =>
    cases hinner.symm.trans hinner'
    cases hlocked with
    | empty hother => exact absurd hbkind hother
    | block _ hstmts =>
      obtain ⟨⟨hscopes, hloops, hlocks⟩, hconsumed⟩ := hb.keeps_expr hwithin (by simp [hinner]) _ _ _ _ htext
      have hu : OpensLock s { t.flushed with scopes := [.text (lockName (s.locks + 1))] :: t.scopes } :=
        ⟨congrArg (cons _) hscopes, hloops, hconsumed, hlocks⟩
      generalize State.mk .. = u at hu hstmts
      have hopens : OpensScope s { u with scopes := [] :: s.scopes } :=
        ⟨rfl, hu.loops, hu.consumed, by rw [hu.locks]; exact Nat.le_succ _⟩
      have hinside : State.Inside { u with scopes := [] :: s.scopes } := hopens.inside htidy.loops
      have hlock : Piece W nodes env _ _
          [.declare (depth + 1) _ (lockHead env.root (lockName (s.locks + 1)) text)] u := hu.piece htidy
      obtain ⟨a, hpiece, htidy', hends⟩ := piece_of_statements hb hbody (hwithin.of_mem hcomposite hmem)
        (hu.tidy (htidy.sub (localNames_sublist hcomposite hmem))) hbkind (hlock.inside hinside) hstmts
      exact ((hlock.append hinside hpiece).braces hopens htidy.loops htidy' hends.append).temps_append
  | nothing hnone =>
    rcases hnone with hshort | ⟨hpool, -⟩
    · rw [hinner, hkind] at hshort
      exact absurd hshort (Nat.not_lt.mpr (Nat.le_add_left 2 _))
    · exact absurd (hkind.symm.trans hpool) (by decide)
  | block hblock => simp [hkind] at hblock
  | expr hplain => exact absurd (by rw [hkind]; decide) hplain
  | _ hother => exact absurd (hkind.symm.trans hother) (by decide)

end Statements

theorem piece_of_lowerStmtKind (hb : Sound W nodes env (level k))
    (hexpr : ∀ m : Node, m.preorder ⊆ nodes → ownershipFrame.Keeps (exprStep (level k) m))
    (hn : Structured n) (hwithin : Within W nodes n) (htidy : Tidy s (localNames n))
    (h : Yields (lowerStmtKind (level k) depth n) env s code s') : Piece W nodes env [] s code s' := by
  have hn' := hn
  have htidy' : Tidy s [] := htidy.sub (nil_sublist _)
  cases hn with
  | block hkind _ _ _ =>
    simp only [lowerStmtKind, hkind, yields_bind, yields_pure] at h
    obtain ⟨body, t, hbody, rfl, rfl⟩ := h
    exact piece_of_lowerScope hb hn' hwithin htidy hkind hbody
  | @pool _ body _ hkind _ hinner hbkind hbody =>
    have hcomposite : n.kind ∈ Node.compositeKinds := by rw [hkind]; decide
    have hmem : body ∈ n.inner := by simp [hinner]
    have hhead : n.inner.head?.filter (fun b => b.kind == "CompoundStmt") = some body := by
      simp [hinner, hbkind]
    simp only [lowerStmtKind, hkind, hhead, yields_bind, yields_pure] at h
    obtain ⟨code, t, hcode, rfl, rfl⟩ := h
    exact piece_of_lowerScope hb hbody (hwithin.of_mem hcomposite hmem)
      (htidy.sub (localNames_sublist hcomposite hmem)) hbkind hcode
  | lock hkind _ hinner hbkind hbody =>
    simp only [lowerStmtKind, hkind] at h
    exact piece_of_lowerSynchronized hb hwithin htidy hkind hinner hbkind hbody h
  | branch hkind _ _ _ _ =>
    simp only [lowerStmtKind, hkind] at h
    exact piece_of_branchStep hb hwithin htidy hn' hkind h
  | whileLoop hkind _ hinner hbody =>
    have hcomposite : n.kind ∈ Node.compositeKinds := by rw [hkind]; decide
    simp only [lowerStmtKind, hkind] at h
    replace h := yields_bind_children h
    rw [hinner] at h
    simp only [yields_bind, yields_flush, yields_pure] at h
    obtain ⟨text, t, htext, _, _, ⟨rfl, rfl⟩, inside, u, hu, rfl, rfl⟩ := h
    have hframe := hb.frame_flushed hwithin (by simp [hinner]) htext
    refine Piece.temps_append (piece_of_loop hb hwithin hcomposite htidy (by simp [hinner]) hbody hframe ?_ hu)
    exact fun t o x hpath => ⟨true, hpath⟩
  | doLoop hkind _ hinner hbody =>
    have hcomposite : n.kind ∈ Node.compositeKinds := by rw [hkind]; decide
    simp only [lowerStmtKind, hkind] at h
    replace h := yields_bind_children h
    rw [hinner] at h
    simp only [yields_bind, yields_pure] at h
    obtain ⟨inside, u, hu, text, t, htext, rfl, rfl⟩ := h
    have hframe := hb.keeps_expr hwithin (by simp [hinner]) _ _ _ _ htext
    refine Piece.congr (ownershipFrame.refl _) (piece_of_loop hb hwithin hcomposite htidy (by simp [hinner])
      hbody (ownershipFrame.refl _) ?_ hu) hframe
    exact fun t o x hpath => ⟨false, hpath⟩
  | forLoop hkind _ hinner _ hlength hlast hnull hbody =>
    simp only [lowerStmtKind, hkind] at h
    exact piece_of_lowerFor hb hwithin htidy hkind hinner hlength hlast hnull hbody h
  | returns hkind _ hcasts =>
    simp only [lowerStmtKind, hkind] at h
    exact piece_of_lowerReturn (hwithin.nodes (Node.mem_preorder_self n)) hkind hcasts
      (fun m hm => hb.expr m fun l hl => hwithin.nodes (Node.preorder_subset_of_preorder n hm hl))
      htidy' h
  | jump hkind _ =>
    obtain hkind | hkind | hkind := hkind
    · simp only [lowerStmtKind, hkind] at h
      refine piece_of_jump (.inl rfl) ?_ htidy' h
      exact fun t o x hpath => hpath
    · simp only [lowerStmtKind, hkind] at h
      refine piece_of_jump (.inr rfl) ?_ htidy' h
      exact fun t o x hpath => hpath
    · simp only [lowerStmtKind, hkind, yields_pure] at h
      obtain ⟨rfl, rfl⟩ := h
      exact Piece.skip (ownershipFrame.refl _) fun t o x hpath => pathsAll_singleton.mp hpath
  | expr hplain _ =>
    rw [lowerStmtKind_of_plainExpr hplain] at h
    obtain ⟨text, t, htext, rfl, rfl⟩ := written_of_exprStmt h
    refine Piece.skip (ownershipFrame.trans (hexpr n hwithin.nodes _ _ _ _ htext) (flushed_frame t)) ?_
    exact fun t o x hpath => pathsAll_singleton.mp (pathsAll_temps_append.mp hpath)
  | @cleanups _ c _ hkind _ hinner hplain hunexpanded =>
    simp only [lowerStmtKind, hkind, hinner] at h
    have hmem : c ∈ n.inner := by simp [hinner]
    have hlocals : c.locals = [] := hplain.locals
    have hc : Within W nodes c := ⟨fun l hl => hwithin.nodes (Node.preorder_subset_of_inner hmem hl),
      by simp [hlocals]⟩
    exact hb.stmt c (.expr hplain hunexpanded) hc _ _ _ _ (by simpa [localNames, hlocals] using htidy') h

theorem not_next_of_lowerReturn
    (h : Yields (lowerReturn expr depth n) env s code s') (t : List Event) (o : List String) :
    ¬ pathsAll code t o .next := by
  cases returned_of_yields h with
  | bare => exact not_next_of_returns
  | value => exact not_next_of_returns

theorem piece_of_declStmt (hexpr : ∀ m ∈ n.preorder, ownershipFrame.Keeps (below.expr m))
    (hkind : n.kind = "DeclStmt") (hshared : ∀ d ∈ n.locals, isShared d = false)
    (hwithin : Within W nodes n) (hs : s.Inside) (htidy : Tidy s (localNames n))
    (h : Yields (lowerStmtKind below depth n) env s code s') :
    ∃ a, a.Sublist (localNames n) ∧ Piece W nodes env a s code s' := by
  have hlocals := Node.locals_of_declStmt hkind
  have hnames : n.locals.flatMap (fun d => [declaredName d]) = localNames n := by
    rw [localNames, map_eq_flatMap]
  simp only [lowerStmtKind, hkind] at h
  replace h := yields_bind_children h
  rw [← hlocals] at h
  rw [← hnames] at htidy ⊢
  refine piece_of_lowerAll (fun d hd s code s' _ htidy h => ?_) hs htidy h
  refine piece_of_varDecl (hshared d hd) (hwithin.watched d hd) (fun e he => hexpr e ?_) htidy h
  have hd' : d ∈ n.inner := by
    rw [hlocals] at hd
    exact (mem_filter.mp hd).1
  exact Node.preorder_subset_of_inner hd' (Node.mem_preorder_of_inner he)

theorem sound_level (hrelease : ∀ m ∈ nodes, m.kind = "ObjCMessageExpr" → m.selector ≠ "release")
    (k : Nat) : Sound W nodes env (level k) := by
  have hexpr : ∀ k (n : Node), n.preorder ⊆ nodes → ownershipFrame.Keeps ((level k).expr n) :=
    fun k n hn => level_expr_keeps_ownership k fun m hm => hrelease m (hn hm)
  induction k with
  | zero =>
    refine ⟨hexpr 0, ?_, ?_, ?_, ?_⟩
    · exact fun n _ _ depth s code s' _ h => absurd h yields_throw
    · exact fun n _ _ _ depth s code s' _ h => absurd h yields_throw
    · exact fun n _ _ _ _ depth s code s' _ _ h => absurd h yields_throw
    · exact fun n _ _ depth s code s' h => absurd h yields_throw
  | succ k ih =>
    refine ⟨hexpr (k + 1), ?_, ?_, ?_, ?_⟩
    · intro n hn hwithin depth s code s' htidy h
      exact piece_of_lowerStmtKind ih (hexpr (k + 1)) hn hwithin htidy
        (lowerStmtKind_of_unexpanded hn.unexpanded h)
    · intro n hn hkind hwithin depth s code s' htidy h
      exact piece_of_branchStep ih hwithin htidy hn hkind h
    · intro n hkind hunexpanded hshared hwithin depth s code s' hs htidy h
      refine piece_of_declStmt (fun m hm => ih.expr m fun l hl => ?_) hkind hshared hwithin hs htidy
        (lowerStmtKind_of_unexpanded hunexpanded h)
      exact hwithin.nodes (Node.preorder_subset_of_preorder n hm hl)
    · intro n hkind hunexpanded depth s code s' h
      have hreturn := lowerStmtKind_of_unexpanded hunexpanded h
      simp only [lowerStmtKind, hkind] at hreturn
      exact not_next_of_lowerReturn hreturn

theorem entered_scopes (hnames : (params.map Param.name).Nodup) :
    (s.entered params).scopes = params.map Param.name :: s.scopes := by
  have hscopes := (growsBy_tracked { s with scopes := [] :: s.scopes } params).2
  rwa [trackAll, addAllNew_eq_append hnames (by simp)] at hscopes

theorem foldl_track_frame {params : List Param} :
    (params.foldl (fun s p => s.track p.name) s).loops = s.loops ∧
      (params.foldl (fun s p => s.track p.name) s).consumed = s.consumed := by
  induction params generalizing s with
  | nil => exact ⟨rfl, rfl⟩
  | cons p params ih =>
    obtain ⟨hloops, hconsumed, -⟩ := track_frame s p.name
    obtain ⟨hloops', hconsumed'⟩ := ih (s := s.track p.name)
    exact ⟨hloops'.trans hloops, hconsumed'.trans hconsumed⟩

theorem entered_frame (params : List Param) :
    (s.entered params).loops = s.loops ∧ (s.entered params).consumed = s.consumed :=
  foldl_track_frame (s := { s with scopes := [] :: s.scopes })

theorem pathsAll_retains {root : String} {params : List Param}
    (h : pathsAll (params.map (fun p => .retain depth root p.name.plain) ++ c) t o x) :
    ∃ rest, t = params.map (fun p => .retain p.name.plain) ++ rest ∧ pathsAll c rest o x := by
  induction params generalizing t o with
  | nil => exact ⟨t, rfl, h⟩
  | cons p params ih =>
    cases h with
    | left hp hx =>
      cases hp
      exact absurd rfl hx
    | both hp hrest =>
      cases hp
      obtain ⟨rest, rfl, hc⟩ := ih hrest
      exact ⟨rest, rfl, by simpa using hc⟩

structure WellNamed (params : List Param) (body : Node) : Prop where
  distinct : (params.map Param.name ++ localNames body).Nodup
  texts : ∀ name ∈ params.map Param.name ++ localNames body, name.isText = true
  notSelf : Json.text "self" ∉ params.map Param.name ++ localNames body
  notLock : ∀ k, Json.text (lockName k) ∉ params.map Param.name ++ localNames body

namespace WellNamed

theorem nodup_params (h : WellNamed params body) : (params.map Param.name).Nodup :=
  (nodup_append.mp h.distinct).1

theorem scopes (h : WellNamed params body) :
    (s.atFunction.entered params).scopes = [params.map Param.name] :=
  entered_scopes h.nodup_params

theorem inside (h : WellNamed params body) : (s.atFunction.entered params).Inside := by
  refine ⟨_, _, h.scopes, ?_⟩
  rw [(entered_frame params).1]
  exact fun outside hin => nomatch hin

theorem tidy (h : WellNamed params body) :
    Tidy (s.atFunction.entered params) (localNames body) := by
  obtain ⟨hloops, hconsumed⟩ := entered_frame (s := s.atFunction) params
  constructor
  · exact hconsumed
  · simpa [h.scopes] using h.texts
  · simpa [h.scopes] using h.distinct
  · intro k hk
    exact absurd (by simpa [h.scopes] using hk) (h.notLock k)
  · rw [hloops]
    exact fun outside hin => nomatch hin

end WellNamed

/-- The variables that are accounted for: no local of another sort has such a name. -/
def Accountable (body : Node) (v : String) : Prop :=
  ∀ d ∈ body.locals, declaredName d = .text v → v ≠ "self" ∧ DeclaresOwner d

theorem within_body (body : Node) : Within (Accountable body) body.preorder body :=
  ⟨fun _ h => h, fun d hd _ hv hname => hv d hd hname⟩

section Bodies

theorem closes_of_lowerScope (hbody : Structured body) (hkind : body.kind = "CompoundStmt")
    (hrelease : NoRelease body) (hnames : WellNamed params body)
    (h : Yields (lowerScope (level k) depth params body) env s.atFunction code s')
    (hpath : pathsAll code t o x) (hx : x ≠ .breaks ∧ x ≠ .continues) :
    ∃ out rest, Ends env body.preorder x out ∧
      t = params.map (fun p => .retain p.name.plain) ++ rest ∧
      ∀ v, Accountable body v →
        Closes (s.atFunction.entered params) (params.map Param.name) v rest o x out := by
  obtain ⟨inside, u, hinside, rfl, rfl⟩ := entered_of_yields h
  obtain ⟨a, hpiece, htidy, hends⟩ := piece_of_statements (sound_level hrelease k) hbody
    (within_body body) hnames.tidy hkind hnames.inside hinside
  rw [append_assoc] at hpath
  obtain ⟨rest, rfl, hrest⟩ := pathsAll_retains hpath
  have hloops : (s.atFunction.entered params).loops = [] := (entered_frame params).1
  obtain ⟨out, hout, hcloses⟩ := hpiece.closes hnames.scopes (by simp [hloops]) htidy hends hrest
    (fun h => absurd h (by simp [hx]))
  exact ⟨out, rest, hout, rfl, hcloses⟩

theorem WellNamed.isHeld_iff (hnames : WellNamed params body) :
    (s.atFunction.entered params).isHeld v = true ↔ Json.text v ∈ params.map Param.name := by
  simp [State.isHeld, hnames.scopes]

theorem WellNamed.accountable_param (hnames : WellNamed params body)
    (hv : Json.text v ∈ params.map Param.name) : Accountable body v := by
  intro d hd hname
  have hlocal : Json.text v ∈ localNames body := hname ▸ mem_map_of_mem hd
  exact absurd rfl ((nodup_append.mp hnames.distinct).2.2 _ hv _ hlocal)

theorem WellNamed.accountable_local (hnames : WellNamed params body)
    (hd : d ∈ body.locals) (hname : declaredName d = .text v) (howner : DeclaresOwner d) :
    Accountable body v := by
  intro d' hd' hname'
  have hlocals : (body.locals.map declaredName).Nodup := (nodup_append.mp hnames.distinct).2.1
  obtain rfl : d' = d := inj_on_of_nodup_map hlocals hd' hd (hname'.trans hname.symm)
  refine ⟨?_, howner⟩
  rintro rfl
  exact hnames.notSelf (mem_append_right _ (hname ▸ mem_map_of_mem hd))

theorem WellNamed.accountable_lock (hnames : WellNamed params body) (k : Nat) :
    Accountable body (lockName k) := by
  intro d hd hname
  exact absurd (mem_append_right _ (hname ▸ mem_map_of_mem hd)) (hnames.notLock k)

/-- Every path through a structured body retains its parameters at the start and releases each of
them once; every lifetime of a local that owns its object, and of a lock, has one release before the
scope is left. The one variable that a return hands out is not released. -/
theorem lowerBody_balanced {code : Code} (hbody : Structured body)
    (hkind : body.kind = "CompoundStmt") (hrelease : NoRelease body)
    (hnames : WellNamed (objectParams params) body)
    (h : Yields (lowerBody params (some body)) env s.atFunction code s')
    (hpath : code.paths t o x) (hx : x ≠ .breaks ∧ x ≠ .continues) :
    ∃ out rest, Ends env body.preorder x out ∧
      t = (objectParams params).map (fun p => .retain p.name.plain) ++ rest ∧
      (∀ p ∈ objectParams params,
        after p.name.plain (.held true) rest = some (atEnd out p.name.plain true)) ∧
      (∀ d ∈ body.locals, DeclaresOwner d →
        Finished out (declaredName d).plain (after (declaredName d).plain .absent rest)) ∧
      ∀ k, Finished out (lockName k) (after (lockName k) .absent rest) := by
  obtain ⟨inside, u, hinside, hcode⟩ := yields_bind.mp h
  obtain ⟨rfl, rfl⟩ := yields_pure.mp hcode
  rw [paths] at hpath
  cases hpath with
  | @intro t o _ hpath =>
    obtain ⟨out, rest, hends, rfl, hcloses⟩ :=
      closes_of_lowerScope hbody hkind hrelease hnames hinside hpath hx
    have hlocal : ∀ v, Accountable body v → Json.text v ∉ (objectParams params).map Param.name →
        Finished out v (after v .absent (rest ++ o.map .leave)) := by
      intro v hv hparam
      exact (hcloses v hv).finished (Bool.eq_false_iff.mpr (mt hnames.isHeld_iff.mp hparam)) hparam
    refine ⟨out, rest ++ o.map .leave, hends, append_assoc _ _ _, ?_, ?_, ?_⟩
    · intro p hp
      have hmem : p.name ∈ (objectParams params).map Param.name := mem_map_of_mem hp
      have htext := eq_text_plain (hnames.texts _ (mem_append_left _ hmem))
      generalize p.name.plain = v at htext ⊢
      rw [htext] at hmem
      cases hcloses v (hnames.accountable_param hmem) with
      | own _ ho hafter => rw [after_append_leave ho, hafter true]
      | outer _ hown => exact absurd hmem hown
      | closed hv => rw [hnames.isHeld_iff.mpr hmem] at hv; cases hv
      | opened _ hv => rw [hnames.isHeld_iff.mpr hmem] at hv; cases hv
    · intro d hd howner
      have hmem : declaredName d ∈ localNames body := mem_map_of_mem hd
      have htext := eq_text_plain (hnames.texts _ (mem_append_right _ hmem))
      generalize (declaredName d).plain = v at htext ⊢
      refine hlocal v (hnames.accountable_local hd htext howner) fun hparam => ?_
      exact (nodup_append.mp hnames.distinct).2.2 _ hparam _ (htext ▸ hmem) rfl
    · intro k
      refine hlocal _ (hnames.accountable_lock k) fun hparam => ?_
      exact hnames.notLock k (mem_append_left _ hparam)

end Bodies

/-- `id a = p; while (c) { id b; break; } @synchronized (p) { return a; }` -/
def keepAndLock : Node :=
  .bare "CompoundStmt" [
    .varStmt "a" "id" [.varRef "p" "id"],
    .bare "WhileStmt" [.varRef "c" "int",
      .bare "CompoundStmt" [.varStmt "b" "id" [], .bare "BreakStmt" []]],
    .bare "ObjCAtSynchronizedStmt" [.varRef "p" "id",
      .bare "CompoundStmt" [.bare "ReturnStmt" [.varRef "a" "id"]]]]

def keepAndLockCode : Code :=
  .block 0 [
    .retain 1 "OZObject" "p", .declare 1 "a" "struct OZObject * a = p", .retain 1 "OZObject" "a",
    .whileLoop 1 "c" [
      .declare 2 "b" "struct OZObject * b", .release 2 "OZObject" "b", .breaks 2,
      .release 2 "OZObject" "b"],
    .block 1 [
      .declare 2 "_sync" ("struct OZSpinLock *_sync = "
        ++ "OZSpinLock_initWithObject(OZSpinLock_alloc(), (struct OZObject *)p)"),
      .release 2 "OZObject" "p", .release 2 "OZObject" "_sync", .returns 2 (some "a")],
    .release 1 "OZObject" "p", .release 1 "OZObject" "a"]

theorem structured_keepAndLock : Structured keepAndLock := by
  have hbreak : Structured (.bare "BreakStmt" []) := .jump (.inl rfl) (unexpanded_bare _ _)
  have hloop : Structured (.bare "CompoundStmt" [.varStmt "b" "id" [], .bare "BreakStmt" []]) := by
    apply structured_block
    · simp only [forall_mem_cons]
      exact ⟨fun _ => declares_varStmt rfl, fun h => absurd h (by decide), by simp⟩
    · simp only [forall_mem_cons]
      exact ⟨fun h => absurd rfl h, fun _ => hbreak, by simp⟩
  have hlocked : Structured (.bare "CompoundStmt" [.bare "ReturnStmt" [.varRef "a" "id"]]) := by
    apply structured_block
    · simp only [forall_mem_cons]
      exact ⟨fun h => absurd h (by decide), by simp⟩
    · simp only [forall_mem_cons]
      exact ⟨fun _ => structured_returnVar "a" "id", by simp⟩
  apply structured_block
  · simp only [forall_mem_cons]
    exact ⟨fun _ => declares_varStmt rfl, fun h => absurd h (by decide),
      fun h => absurd h (by decide), by simp⟩
  · simp only [forall_mem_cons]
    exact ⟨fun h => absurd rfl h, fun _ => .whileLoop rfl (unexpanded_bare _ _) rfl hloop,
      fun _ => .lock rfl (unexpanded_bare _ _) rfl rfl hlocked, by simp⟩

theorem wellNamed_keepAndLock : WellNamed (objectParams [⟨"p", ⟨"id"⟩⟩]) keepAndLock := by
  have hparams : objectParams [⟨"p", ⟨"id"⟩⟩] = [⟨"p", ⟨"id"⟩⟩] := rfl
  rw [hparams]
  refine ⟨by decide, by decide, by decide, fun k => ?_⟩
  have hnames : localNames keepAndLock = [.text "a", .text "b"] := rfl
  simp only [hnames, map_cons, map_nil, cons_append, nil_append, mem_cons,
    not_mem_nil, or_false, Json.text.injEq, not_or]
  exact ⟨lockName_ne (by decide), lockName_ne (by decide), lockName_ne (by decide)⟩

set_option maxRecDepth 4000 in
theorem lowerBody_keepAndLock :
    Yields (lowerBody [⟨"p", ⟨"id"⟩⟩] (some keepAndLock))
      { cls := { name := "Foo" }, module := {}, root := "OZObject" } ({} : State).atFunction
      keepAndLockCode { locks := 1 } := rfl

theorem path_keepAndLock :
    keepAndLockCode.paths [.retain "p", .declare "a", .retain "a", .declare "b", .release "b",
      .leave "b", .declare "_sync", .release "p", .release "_sync", .leave "_sync", .leave "a"] []
      (.returns (some "a")) := by
  have hpath : keepAndLockCode.paths _ _ (.returns (some "a")) :=
    Scoped.intro (.both .intro (.both .intro (.both .intro (.both
      (Loop.broken (Scoped.intro (.both .intro (.both .intro (.left .intro (by simp))))))
      (.left (Scoped.intro (.both .intro (.both .intro (.both .intro (.left .intro (by simp))))))
        (by simp))))))
  exact hpath

theorem keepAndLock_balanced :
    ∃ out rest, Ends { cls := { name := "Foo" }, module := {}, root := "OZObject" }
        keepAndLock.preorder (.returns (some "a")) out ∧
      [Event.retain "p", .declare "a", .retain "a", .declare "b", .release "b", .leave "b",
        .declare "_sync", .release "p", .release "_sync", .leave "_sync", .leave "a"] =
          .retain "p" :: rest ∧
      after "p" (.held true) rest = some (atEnd out "p" true) ∧
      Finished out "a" (after "a" .absent rest) ∧ Finished out "b" (after "b" .absent rest) ∧
      ∀ k, Finished out (lockName k) (after (lockName k) .absent rest) := by
  obtain ⟨out, rest, hends, ht, hparams, hlocals, hlocks⟩ := lowerBody_balanced
    structured_keepAndLock rfl (by unfold NoRelease; decide) wellNamed_keepAndLock
    lowerBody_keepAndLock path_keepAndLock (by decide)
  refine ⟨out, rest, hends, ht, hparams ⟨"p", ⟨"id"⟩⟩ (by decide), ?_, ?_, hlocks⟩
  · exact hlocals _ (.head _) ⟨⟨"id"⟩, rfl, rfl, rfl⟩
  · exact hlocals _ (.tail _ (.head _)) ⟨⟨"id"⟩, rfl, rfl, rfl⟩

end ObjcLowering.Lowering
