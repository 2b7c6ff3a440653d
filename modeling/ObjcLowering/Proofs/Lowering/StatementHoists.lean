import ObjcLowering.Proofs.Lowering.HoistSites
import ObjcLowering.Proofs.Lowering.StatementCases

/-! Every way of lowering a statement declares temporaries for its sites, in order. -/

namespace ObjcLowering.Lowering

open Ast Code Lowering.Frame
open List hiding after count

variable {n c : Node} {below : SitesBelow} {s s' : State}

/-- With some parts, the queue `before` becomes the queue `after`, and `out` is taken out of it: all
declarations that are added come from the sites of the parts, in order. -/
def Tally (env : Env) (k : Nat) (n : Node) (below : SitesBelow) (ps : List StmtPart)
    (before out after : List TempDecl) : Prop :=
  ∃ sites ds, PartsSites env k n below ps sites ∧ Forall₂ (HoistSite.Declares env n) sites ds ∧
    out ++ after = before ++ ds

theorem PartsSites.append (ha : PartsSites env k n below ps a)
    (hb : PartsSites env k n below qs b) : PartsSites env k n below (ps ++ qs) (a ++ b) := by
  induction ha with
  | nil => exact hb
  | text _ ih =>
    rw [cons_append, append_assoc]
    exact .text ih
  | own _ ih => exact .own ih
  | stmt hc hinside _ ih =>
    rw [cons_append, append_assoc]
    exact .stmt hc hinside ih
  | branch hc hinside _ ih =>
    rw [cons_append, append_assoc]
    exact .branch hc hinside ih

namespace Tally

theorem nil : Tally env k n below [] q [] q := ⟨[], [], .nil, .nil, by simp⟩

theorem flush : Tally env k n below [] q q [] := ⟨[], [], .nil, .nil, by simp⟩

theorem trans (h : Tally env k n below ps before out q) (h' : Tally env k n below qs q out' after) :
    Tally env k n below (ps ++ qs) before (out ++ out') after := by
  obtain ⟨a, ds, ha, hds, heq⟩ := h
  obtain ⟨b, es, hb, hes, heq'⟩ := h'
  refine ⟨a ++ b, ds ++ es, ha.append hb, rel_append hds hes, ?_⟩
  rw [append_assoc, heq', ← append_assoc, heq, append_assoc]

theorem own (below : SitesBelow) (hc : n.part? p = some c) (hd : HeldFor env c d) :
    Tally env k n below [.own p] [] [d] [] :=
  ⟨[⟨[], p⟩], [d], .own .nil, .cons ⟨c, hc, .inr hd⟩ .nil, by simp⟩

end Tally

theorem Queued.tally (below : SitesBelow) (h : Queued env k n parts s s') :
    Tally env k n below [.text parts] s.pending [] s'.pending := by
  obtain ⟨ds, hds, hs'⟩ := h
  refine ⟨_, ds, .text .nil, ?_, hs'⟩
  rw [append_nil, forall₂_map_left_iff]
  exact hds.imp fun p d hd => hd.imp fun m hm => ⟨hm.1, .inl hm.2⟩

theorem tally_expr (below : SitesBelow) (hc : n.part? p = some c)
    (h : Yields ((level k).expr c) env s text s') :
    Tally env k n below [exprAt p] s.pending [] s'.pending :=
  (queuesParts_level p c s text s' hc h).tally below

theorem writtenAs_of_yields (h : Yields ((level k).expr c) env s text s') :
    WrittenAs env c text := ⟨k, s, s', h⟩

def SettledBy (env : Env) (sitesOf : Node → List HoistSite → Prop) (n : Node) (s : State)
    (code : List Code) (s' : State) : Prop :=
  ∃ sites ds, sitesOf n sites ∧ Forall₂ (HoistSite.Declares env n) sites ds ∧
    tempDeclsAll code ++ s'.pending = s.pending ++ ds

structure Settled (env : Env) (k : Nat) (below : SitesBelow) : Prop where
  stmt : ∀ {depth n s code s'}, Yields ((level k).stmt depth n) env s code s' →
    SettledBy env below.stmt n s code s'
  branch : ∀ {depth n s code s'}, Yields ((level k).branch depth n) env s code s' →
    SettledBy env below.branch n s code s'

theorem declares_under {site : HoistSite} (hc : n.part? p = some c)
    (h : site.Declares env c d) : (site.under p).Declares env n d := by
  obtain ⟨m, hm, hd⟩ := h
  refine ⟨m, ?_, hd⟩
  rw [HoistSite.position, HoistSite.under, append_assoc, Node.part_append, hc]
  exact hm

theorem stmtsAt_succ : stmtsAt p start (count + 1) = .stmt (p ++ [start]) :: stmtsAt p (start + 1) count := by
  simp [stmtsAt, range'_succ]

@[simp] theorem tempDeclsAll_releases {root : String} : tempDeclsAll (releases depth root names) = [] :=
  tempDeclsAll_map_eq_nil (fun _ => by rw [tempDecls]) names

@[simp] theorem tempDeclsAll_exitCode {root : String} : tempDeclsAll (exitCode depth root s ns) = [] := by
  unfold exitCode
  split <;> simp

@[simp] theorem pending_entered : (s.entered []).pending = s.pending := rfl

@[simp] theorem pending_left : s.left.pending = s.pending := rfl

@[simp] theorem pending_flushed : s.flushed.pending = [] := rfl

@[simp] theorem temps_flushed : s.flushed.temps = s.temps := rfl

@[simp] theorem pending_restore : (s.restore name).pending = s.pending := rfl

@[simp] theorem pending_consume : (s.consume name).pending = s.pending := by
  unfold State.consume
  split <;> rfl

@[simp] theorem pending_declaring : (s.declaring n type).pending = s.pending := by
  unfold State.declaring State.track
  split
  · split <;> rfl
  · rfl

@[simp] theorem tempDeclsAll_temps : tempDeclsAll (temps depth s) = s.pending :=
  tempDeclsAll_map_temp depth s.pending

namespace Settled

variable (hb : Settled env k below) (hc : n.part? p = some c)

include hb hc

theorem tally_stmt (h : Yields ((level k).stmt depth c) env s code s') :
    Tally env k n below [.stmt p] s.pending (tempDeclsAll code) s'.pending := by
  obtain ⟨sites, ds, hsites, hds, heq⟩ := hb.stmt h
  refine ⟨_, ds, .stmt hc hsites .nil, ?_, heq⟩
  rw [append_nil, forall₂_map_left_iff]
  exact hds.imp fun site d hd => declares_under hc hd

theorem tally_branch (h : Yields ((level k).branch depth c) env s code s') :
    Tally env k n below [.branch p] s.pending (tempDeclsAll code) s'.pending := by
  obtain ⟨sites, ds, hsites, hds, heq⟩ := hb.branch h
  refine ⟨_, ds, .branch hc hsites .nil, ?_, heq⟩
  rw [append_nil, forall₂_map_left_iff]
  exact hds.imp fun site d hd => declares_under hc hd

omit hc in
theorem tally_stmts (hcs : ChildrenAt n p start cs) (h : Yields (lowerAll ((level k).stmt depth) cs) env s code s') :
    Tally env k n below (stmtsAt p start cs.length) s.pending (tempDeclsAll code) s'.pending := by
  induction cs generalizing start s code with
  | nil =>
    obtain ⟨rfl, rfl⟩ := yields_lowerAll_nil.mp h
    exact .nil
  | cons c cs ih =>
    obtain ⟨first, t, rest, hfirst, hrest, rfl⟩ := yields_lowerAll_cons.mp h
    rw [length_cons, stmtsAt_succ, tempDeclsAll_append]
    exact (hb.tally_stmt hcs.head hfirst).trans (ih hcs.tail hrest)

theorem tally_scope (h : Yields (lowerScope (level k) depth [] c) env s code s') :
    Tally env k n below (stmtsAt p 0 c.inner.length) s.pending (tempDeclsAll code)
      s'.pending := by
  obtain ⟨body, t, hbody, rfl, rfl⟩ := entered_of_yields h
  have htally := hb.tally_stmts (childrenAt_inner hc) hbody
  simpa using htally

theorem tally_braced (h : Yields (lowerBraced (level k) depth c) env s code s') :
    Tally env k n below (bracedParts p c) s.pending (tempDeclsAll code) s'.pending := by
  unfold lowerBraced at h
  unfold bracedParts
  split at h
  · next hkind =>
    rw [if_pos hkind]
    exact hb.tally_scope hc h
  · next hkind =>
    rw [if_neg hkind]
    exact hb.tally_stmt hc h

theorem tally_loopBody (h : Yields (lowerLoopBody (level k) depth c) env s code s') :
    Tally env k n below (bracedParts p c) s.pending (tempDeclsAll code) s'.pending := by
  obtain ⟨t, ht, rfl⟩ := yields_lowerLoopBody.mp h
  have htally := hb.tally_braced hc ht
  exact htally

end Settled

theorem part_of_filter (hn : n.inner.drop i = ns)
    (h : ns.head?.filter f = some c) : n.part? [i] = some c := by
  have hhead := (Option.filter_eq_some_iff.mp h).1
  rw [← hn, head?_drop] at hhead
  exact Node.part_one.trans hhead

theorem LoweredBody.tally (hlower : ∀ c ∈ part, ∀ {s code s'}, Yields (lower c) env s code s' →
      Tally env k n below (bracedParts p c) s.pending (tempDeclsAll code) s'.pending)
    (h : LoweredBody lower env s part form code s') :
    Tally env k n below (bodyParts p part) s.pending (tempDeclsAll code) s'.pending := by
  cases h with
  | absent => exact .nil
  | braced h => exact hlower _ rfl h

theorem LoweredElse.tally (hb : Settled env k below)
    (hp : ∀ c ∈ part, n.part? p = some c) (h : LoweredElse (level k) env depth s part form code s') :
    Tally env k n below (elseParts p part) s.pending (tempDeclsAll code) s'.pending := by
  cases h with
  | absent => exact .nil
  | braced hkind h => simpa [elseParts, hkind] using hb.tally_braced (hp _ rfl) h
  | chained hkind h => simpa [elseParts, hkind] using hb.tally_branch (hp _ rfl) h

theorem LoweredBranch.tally (hb : Settled env k below) (h : LoweredBranch (level k) env depth n s code s') :
    Tally env k n below (branchParts n) s.pending (tempDeclsAll code) s'.pending := by
  cases h with
  | nothing hn =>
    rw [branchParts, hn]
    exact .nil
  | @parts cond parts other _ _ _ _ _ _ _ _ hn hother hcond hyes hno =>
    have hcond := tally_expr below (n := n) (p := [0]) (by simp [hn]) hcond
    have hyes := hyes.tally (p := [1]) fun c hc _ _ _ h =>
      hb.tally_braced (part_of_filter (by rw [hn]; rfl) hc) h
    have hno := hno.tally hb (n := n) (p := [2]) fun c hc => by
      rw [hother] at hc
      split at hc
      · exact part_of_filter (by rw [hn]; exact drop_one) hc
      · cases hc
    rw [branchParts, hn]
    dsimp only
    rw [← hother]
    simpa [tempDecls] using ((hcond.trans .flush).trans hyes).trans hno

theorem tally_headPart (below : SitesBelow) (hp : n.part? p = part)
    (h : Yields (headPart (level k).expr part) env s text s') :
    Tally env k n below (headParts p part) s.pending [] s'.pending := by
  cases part with
  | none =>
    obtain ⟨-, rfl⟩ := yields_pure.mp h
    exact .nil
  | some c =>
    dsimp only [headPart] at h
    dsimp only [headParts]
    split at h
    · next hkind =>
      obtain ⟨-, rfl⟩ := yields_pure.mp h
      rw [if_pos hkind]
      exact .nil
    · next hkind =>
      rw [if_neg hkind]
      exact tally_expr below hp h

theorem initializerAt_of_some (h : initializer? n = some e) :
    ∃ i, initializerAt? n = some i ∧ n.inner[i]? = some e :=
  Option.bind_eq_some_iff.mp (find?_eq_bind_findIdx?_getElem? ▸ h)

theorem initializerAt_of_none (h : initializer? n = none) : initializerAt? n = none := by
  apply findIdx?_eq_none_iff.mpr
  intro c hc
  simpa using find?_eq_none.mp h c hc

theorem tally_initPart (below : SitesBelow) (hc : n.part? [0] = some c)
    (h : Yields (initPart (level k).expr c) env s text s') :
    Tally env k n below (initParts c) s.pending [] s'.pending := by
  unfold initPart at h
  split at h
  · next hkind =>
    split at h
    · next var hvar =>
      rw [initParts, if_pos hkind, hvar]
      dsimp only
      obtain ⟨raw, -, h⟩ := yields_liftM_bind.mp h
      obtain ⟨type, -, h⟩ := yields_liftM_bind.mp h
      replace h := yields_bind_children h
      have hvar : c.inner[0]? = some var :=
        head?_eq_getElem? ▸ (Option.filter_eq_some_iff.mp hvar).1
      cases hinit : initializer? var with
      | none =>
        rw [initializerAt_of_none hinit]
        unfold initializer? at hinit
        rw [hinit] at h
        obtain ⟨-, rfl⟩ := yields_pure.mp h
        exact .nil
      | some e =>
        obtain ⟨i, hi, he⟩ := initializerAt_of_some hinit
        rw [hi]
        unfold initializer? at hinit
        rw [hinit] at h
        obtain ⟨value, t, hvalue, h⟩ := yields_bind.mp h
        obtain ⟨-, rfl⟩ := yields_pure.mp h
        refine tally_expr below ?_ hvalue
        rw [show [0, 0, i] = [0] ++ [0, i] from rfl, Node.part_append, hc]
        simp [Node.part_cons, hvar, he]
    · next hvar =>
      obtain ⟨-, rfl⟩ := yields_pure.mp h
      rw [initParts, if_pos hkind, hvar]
      exact .nil
  · next hkind =>
    rw [initParts, if_neg hkind]
    exact tally_headPart below hc h

theorem tally_written (h : Yields (exprStep (level k) n) env s text s') :
    Tally env k n below [.text (exprParts env n)] s.pending
      (tempDeclsAll (temps depth s' ++ [.line depth (text ++ ";")])) s'.flushed.pending := by
  have hexpr := (queued_exprStep queuesParts_level h).tally below
  simpa [tempDecls] using hexpr.trans .flush

theorem Stored.tally (hrhs : n.part? [1] = some rhs)
    (h : Stored (level k).expr env depth ivar lhs rhs s code s') :
    Tally env k n below (exprAt [1] :: storeParts rhs) s.pending (tempDeclsAll code) s'.pending := by
  unfold storeParts
  cases h with
  | param hover _ htext =>
    have hvalue := tally_expr below hrhs htext
    rw [hover]
    simpa [storeCode, tempDecls] using hvalue.trans .flush
  | @«local» var text t tracked hover _ htext _ =>
    have hvalue := tally_expr below hrhs htext
    have hpending : (if tracked then t.flushed.consume var else t.flushed).pending = [] := by
      split <;> simp
    rw [hover, hpending]
    simpa [storeCode, tempDecls] using hvalue.trans .flush
  | @other text t raw hover _ htext =>
    have hvalue := tally_expr below hrhs htext
    have hstore := Tally.own (k := k) below hrhs
      (.store t.temps (SourceType.mk raw).cType (writtenAs_of_yields htext))
    rw [hover]
    simpa [storeCode, storeDecl, tempDecls] using (hvalue.trans .flush).trans hstore

theorem part_firstAt (h : n.part? p = some c) : n.part? (firstAt p c) = some (c.inner.headD c) := by
  unfold firstAt
  cases hc : c.inner with
  | nil => simpa using h
  | cons d ds => simp [Node.part_append, h, hc]

theorem part_castedAt (h : n.part? p = some c) :
    n.part? (castedAt p c) = some (if isPlainCast c then c.inner.headD c else c) := by
  unfold castedAt
  split
  · exact part_firstAt h
  · exact h

theorem part_returnedAt (he : n.part? [0] = some e) (h : returnValue e = .ok v) :
    n.part? (returnedAt e) = some v := by
  simp only [returnValue, bind_eq_ok, pure_eq_ok] at h
  obtain ⟨e', he', type, htype, rfl⟩ := h
  obtain ⟨-, he'⟩ := Node.check_eq_ok.mp he'
  have hcast : isPlainCast e' = (decide (e'.kind = "ImplicitCastExpr") && e'.castKind == "BitCast"
      && (type.qual == some "id" || type.qual == some "instancetype"
        || type.desugared == some "id")) := by
    rw [isPlainCast, htype]
    rfl
  rw [← hcast]
  unfold returnedAt
  split
  · next hkind =>
    rw [if_pos hkind] at he'
    rw [he']
    exact part_castedAt (part_firstAt he)
  · next hkind =>
    rw [if_neg hkind] at he'
    rw [he']
    exact part_castedAt he

theorem Returned.tally (h : Returned (level k).expr env depth n s code s') :
    Tally env k n below (returnParts n) s.pending (tempDeclsAll code) s'.pending := by
  unfold returnParts
  cases h with
  | bare hn =>
    rw [hn]
    simpa [tempDecls] using Tally.nil
  | @value e v rest var text t hn _ hv htext =>
    have hvalue := tally_expr below (part_returnedAt (n := n) (by simp [hn]) hv) htext
    rw [hn]
    simpa [tempDecls] using hvalue.trans .flush

theorem tally_varDecl (hc : n.part? p = some c)
    (h : Yields (lowerVarDecl (level k).expr depth c) env s code s') :
    Tally env k n below (varParts p c) s.pending (tempDeclsAll code) s'.pending := by
  unfold varParts
  cases declared_of_yields h with
  | shared hshared =>
    rw [hshared]
    exact .nil
  | @bare type hshared htype hinit =>
    rw [hshared, hinit]
    simpa [tempDecls] using Tally.nil
  | @value type e text t retained hshared htype hinit htext hkeeps =>
    obtain ⟨i, hi, he⟩ := initializerAt_of_some (Option.filter_eq_some_iff.mp hinit).1
    have hpart : n.part? (p ++ [i]) = some e := by simp [Node.part_append, hc, he]
    have hvalue := tally_expr below hpart htext
    have hretain : tempDeclsAll (if retained then
        [.retain depth env.root (declaredName c).plain] else []) = [] := by
      split <;> simp [tempDecls]
    rw [hshared, hinit, hi]
    simpa [hretain, tempDecls] using hvalue.trans .flush

theorem tally_declarations (hcs : ChildrenAt n [] start cs)
    (h : Yields (lowerAll (lowerVarDecl (level k).expr depth)
      (cs.filter fun d => d.kind == "VarDecl")) env s code s') :
    Tally env k n below (declParts start cs) s.pending (tempDeclsAll code) s'.pending := by
  induction cs generalizing start s code with
  | nil =>
    obtain ⟨rfl, rfl⟩ := yields_lowerAll_nil.mp h
    rw [declParts]
    exact .nil
  | cons c cs ih =>
    rw [declParts]
    by_cases hkind : c.kind == "VarDecl"
    · rw [filter_cons, if_pos hkind] at h
      obtain ⟨first, t, rest, hfirst, hrest, rfl⟩ := yields_lowerAll_cons.mp h
      rw [if_pos hkind, tempDeclsAll_append]
      exact (tally_varDecl hcs.head hfirst).trans (ih hcs.tail hrest)
    · rw [filter_cons, if_neg hkind] at h
      rw [if_neg hkind]
      exact ih hcs.tail h

def TalliedBy (env : Env) (k : Nat) (n : Node) (below : SitesBelow) (parts : List (List StmtPart))
    (s : State) (code : List Code) (s' : State) : Prop :=
  ∃ ps ∈ parts, Tally env k n below ps s.pending (tempDeclsAll code) s'.pending

theorem TalliedBy.one (h : Tally env k n below ps s.pending (tempDeclsAll code) s'.pending) :
    TalliedBy env k n below [ps] s code s' := ⟨ps, mem_singleton_self ps, h⟩

theorem stmtKindParts_of_nothing (h : n.inner.length < leastParts n.kind ∨
    n.kind = "ObjCAutoreleasePoolStmt" ∧ (n.inner.head?.filter fun b => b.kind == "CompoundStmt") = none) :
    stmtKindParts env n = [[]] := by
  rcases h with h | ⟨hkind, hpool⟩
  · unfold leastParts at h
    split at h <;> rename_i hkind <;> rcases hn : n.inner with _ | ⟨a, _ | ⟨b, _ | ⟨c, rest⟩⟩⟩ <;>
      simp_all [stmtKindParts, branchParts, caseParts, guardParts, doParts, forParts, lockParts, forInParts] <;>
      omega
  · simp [stmtKindParts, hkind, poolParts, hpool]

theorem LoweredCases.tally (hb : Settled env k below) (hc : n.part? p = some c)
    (h : LoweredCases (level k) env depth c s code s') :
    Tally env k n below (bracedParts p c) s.pending (tempDeclsAll code) s'.pending := by
  cases h with
  | block hkind h => simpa [bracedParts, hkind] using hb.tally_stmts (childrenAt_inner hc) h
  | single hkind h => simpa [bracedParts, hkind] using hb.tally_stmt hc h

theorem LoweredAssign.tally (h : LoweredAssign (level k) env depth n s code s') :
    TalliedBy env k n below (assignParts env n) s code s' := by
  cases h with
  | ivar hn hivar h =>
    rw [assignParts, hn]
    dsimp only
    rw [hivar]
    exact .one (h.tally (by simp [hn]))
  | @«variable» lhs rhs var text t tracked hn hivar _ htext _ =>
    have hvalue := tally_expr below (n := n) (p := [1]) (by simp [hn]) htext
    have hretain : tempDeclsAll (if tracked.isSome then [.retain depth env.root text] else []) = [] := by
      split <;> simp [tempDecls]
    rw [assignParts, hn]
    dsimp only
    rw [hivar]
    exact ⟨_, .head _, by simpa [hretain, tempDecls] using hvalue.trans .flush⟩
  | expr hivar htext =>
    unfold assignParts
    split
    · next lhs rhs hn =>
      rw [hivar lhs rhs hn]
      exact ⟨_, .tail _ (.head _), tally_written htext⟩
    · exact .one (tally_written htext)

theorem Lowered.tally (hb : Settled env k below) (h : Lowered (level k) env depth n s code s') :
    TalliedBy env k n below (stmtKindParts env n) s code s' := by
  cases h with
  | nothing h =>
    rw [stmtKindParts_of_nothing h]
    exact .one .nil
  | wrapped hkind hn h =>
    rw [stmtKindParts, hkind]
    exact .one (by simpa [hn] using hb.tally_stmt (n := n) (p := [0]) (by simp [hn]) h)
  | returns hkind h =>
    rw [stmtKindParts, hkind]
    exact .one h.tally
  | decls hkind h =>
    rw [stmtKindParts, hkind]
    exact .one (tally_declarations childrenAt_self h)
  | branch hkind h =>
    rw [stmtKindParts, hkind]
    exact .one (h.tally hb)
  | whileLoop hkind hn hcond hbody =>
    have hcond := tally_expr below (n := n) (p := [0]) (by simp [hn]) hcond
    have hbody := hb.tally_loopBody (n := n) (p := [1]) (by simp [hn]) hbody
    rw [stmtKindParts, hkind]
    exact .one (by simpa [guardParts, hn, tempDecls] using (hcond.trans .flush).trans hbody)
  | doLoop hkind hn hbody hcond =>
    -- What the condition queues stays queued.
    have hbody := hb.tally_loopBody (n := n) (p := [0]) (by simp [hn]) hbody
    have hcond := tally_expr below (n := n) (p := [1]) (by simp [hn]) hcond
    rw [stmtKindParts, hkind]
    exact .one (by simpa [doParts, hn, tempDecls] using hbody.trans hcond)
  | forLoop hkind hn hshift hbody ha hb' hc hround =>
    have ha := tally_initPart below (n := n) (by simp [hn]) ha
    have hb' := tally_headPart below (n := n) Node.part_one hb'
    have hc := tally_headPart below (n := n) Node.part_one hc
    have hlast : (if n.inner.length > 4 then n.inner[4]? else n.inner.getLast?) =
        n.inner[if n.inner.length > 4 then 4 else n.inner.length - 1]? := by
      split
      · rfl
      · exact getLast?_eq_getElem?
    rw [hlast] at hbody
    have hround := hround.tally (n := n) fun c hc _ _ _ h =>
      hb.tally_loopBody (Node.part_one.trans (Option.filter_eq_some_iff.mp (hbody ▸ hc)).1) h
    rw [stmtKindParts, hkind]
    refine .one ?_
    rw [forParts]
    split
    · next hn' =>
      obtain ⟨rfl, -⟩ := cons.inj (hn.symm.trans hn')
      rw [hbody, hshift] at *
      simpa [tempDecls] using (((ha.trans hb').trans hc).trans .flush).trans hround
    · next hn' => exact (hn' _ _ _ hn).elim
  | block hc h =>
    rcases hc with ⟨hkind, rfl⟩ | ⟨hkind, hc⟩
    · rw [stmtKindParts, hkind]
      exact .one (by simpa [tempDecls] using hb.tally_scope Node.part_nil h)
    · rw [stmtKindParts, hkind]
      exact .one (by simpa [poolParts, hc, tempDecls] using
        hb.tally_scope (part_of_filter (i := 0) rfl hc) h)
  | lock hkind hn hobject hlock =>
    have hobject := tally_expr below (n := n) (p := [0]) (by simp [hn]) hobject
    rw [stmtKindParts, hkind]
    refine .one ?_
    rw [lockParts, hn]
    cases hlock with
    | block hblock h =>
      have hinside := hb.tally_stmts (n := n) (p := [1]) (childrenAt_inner (by simp [hn])) h
      simpa [hblock, tempDecls] using (hobject.trans .flush).trans hinside
    | empty hblock => simpa [hblock, tempDecls] using hobject.trans .flush
  | @forIn _ collection _ _ _ _ value t _ _ hkind hn _ _ hcollection hbody =>
    have hpart : n.part? [1] = some collection := by simp [hn]
    have hheld : Tally env k n below [.own [1], .own [1]] []
        [⟨"_oz_iter" ++ toString t.temps, iteratorText ("_oz_iter" ++ toString t.temps) value⟩,
          ⟨"_oz_recv" ++ toString (t.temps + 1),
            cursorText ("_oz_recv" ++ toString (t.temps + 1)) ("_oz_iter" ++ toString t.temps)⟩] [] :=
      (Tally.own below hpart (.iterator t.temps (writtenAs_of_yields hcollection))).trans
        (Tally.own below hpart (.cursor (t.temps + 1) t.temps))
    have hcollection := tally_expr below hpart hcollection
    have hbody := hb.tally_loopBody (n := n) (p := [2]) (by simp [hn]) hbody
    rw [stmtKindParts, hkind]
    refine .one ?_
    rw [forInParts, hn]
    simpa [tempDecls] using
      ((hcollection.trans .flush).trans hheld).trans hbody
  | switch hkind hn hcond hcases =>
    have hcond := tally_expr below (n := n) (p := [0]) (by simp [hn]) hcond
    have hcases := hcases.tally hb (n := n) (p := [1]) (by simp [hn])
    rw [stmtKindParts, hkind]
    exact .one (by simpa [guardParts, hn, tempDecls] using (hcond.trans .flush).trans hcases)
  | @case value body _ _ _ _ hkind hn hvalue h =>
    -- What the value queues stays queued until a statement after it.
    have hcs : ChildrenAt n [] 0 (value :: body) := hn ▸ childrenAt_self
    rw [stmtKindParts, hkind]
    refine .one ?_
    rw [caseParts, hn]
    simpa [tempDecls] using (tally_expr below hcs.head hvalue).trans (hb.tally_stmts hcs.tail h)
  | default hkind h =>
    rw [stmtKindParts, hkind]
    exact .one (by simpa [tempDecls] using hb.tally_stmts childrenAt_self h)
  | null hkind | breaks hkind | continues hkind =>
    rw [stmtKindParts, hkind]
    exact .one (by simpa [tempDecls] using Tally.nil)
  | assign hkind hop h =>
    have hparts : stmtKindParts env n = assignParts env n := by simp [stmtKindParts, hkind, hop]
    rw [hparts]
    exact h.tally
  | expr hkind hop htext =>
    have hparts : stmtKindParts env n = [[.text (exprParts env n)]] := by
      unfold stmtKindParts
      split <;> simp_all [controlKinds]
    rw [hparts]
    exact .one (tally_written htext)

theorem copied_of_copyStmt (h : Yields (copyStmt? expr n) env s copy s') :
    (copy = none ∧ Noted n s s' ∧ copyStmtParts? env n = none) ∨
      ∃ text parts texts source use, copy = some text ∧ copyStmtParts? env n = some parts ∧
        Spells expr env n parts s texts s' ∧ env.source = some source ∧ macroUse? n = .ok (some use) ∧
        Copied source n use.1 use.2 texts text := by
  obtain ⟨use, huse, h⟩ := yields_liftM_bind.mp h
  unfold copyStmtParts? copyParts?
  rw [huse]
  cases use with
  | none =>
    obtain ⟨rfl, rfl⟩ := yields_pure.mp h
    refine .inl ⟨rfl, .nothing, ?_⟩
    split
    · cases env.source <;> rfl
    · rfl
  | some use =>
    obtain ⟨ends, hends, h⟩ := yields_liftM_bind.mp h
    rw [hends]
    cases ends with
    | false =>
      obtain ⟨rfl, rfl⟩ := yields_pure.mp h
      exact .inl ⟨rfl, .nothing, rfl⟩
    | true =>
      replace h := yields_read_bind.mp h
      cases hsource : env.source with
      | none =>
        simp only [hsource] at h
        rw [Lowering.warn, yields_modify_bind] at h
        obtain ⟨rfl, rfl⟩ := yields_pure.mp h
        exact .inl ⟨rfl, .warned _ .nothing, rfl⟩
      | some source =>
        simp only [hsource] at h
        rcases copied_of_yields h with ⟨rfl, rfl, hnone⟩ | ⟨text, ps, texts, hcopy, hps, hspells, hcopied⟩
        · exact .inl ⟨rfl, .nothing, hnone⟩
        · exact .inr ⟨text, ps, texts, source, use, hcopy, hps, hspells, rfl, rfl, hcopied⟩

theorem Settled.tally_stmtStep (hb : Settled env k below)
    (h : Yields (stmtStep (level k) depth n) env s code s') :
    TalliedBy env k n below (stmtParts env n) s code s' := by
  unfold stmtParts
  obtain ⟨text, rfl, hcopy⟩ | ⟨t, hcopy, hlowered⟩ := copied_or_lowered_of_yields h
  · obtain ⟨hnone, -, -⟩ | ⟨_, ps, _, _, _, -, hps, hspells, -⟩ := copied_of_copyStmt hcopy
    · cases hnone
    · rw [hps]
      exact .one (by simpa [tempDecls] using (hspells.queued queuesParts_level).tally below)
  · obtain ⟨-, hnoted, hnone⟩ | ⟨_, _, _, _, _, hsome, -⟩ := copied_of_copyStmt hcopy
    · obtain ⟨ps, hps, htally⟩ := hlowered.tally hb
      rw [hnone]
      rw [hnoted.pending] at htally
      exact ⟨ps, hps, htally⟩
    · cases hsome

theorem settled (env : Env) (k : Nat) : Settled env k (sitesAt env k) := by
  induction k with
  | zero => exact ⟨fun h => absurd h yields_throw, fun h => absurd h yields_throw⟩
  | succ k ih =>
    constructor
    · intro depth n s code s' h
      obtain ⟨ps, hps, sites, ds, hsites, hds, heq⟩ := ih.tally_stmtStep h
      exact ⟨sites, ds, ⟨ps, hps, hsites⟩, hds, heq⟩
    · intro depth n s code s' h
      exact (loweredBranch_of_yields h).tally ih

end ObjcLowering.Lowering
