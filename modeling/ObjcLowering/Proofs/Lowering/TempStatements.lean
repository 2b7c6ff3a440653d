import ObjcLowering.Proofs.Lowering.StatementHoists
import ObjcLowering.Proofs.Lowering.TempExpressions

/-!
Every way of lowering a statement numbers its variables anew, and its code is scoped where nothing is
left in the queue.
-/

namespace ObjcLowering.Lowering

open Ast Code Lowering.Frame
open List hiding head

variable {env : Env} {k depth : Nat} {s s' t : State} {code code' : List Code}

/-! ### Calm statements -/

/-- A statement in which nothing is left in the queue: the condition of no `do` loop, the value of no
case and no copied statement declares something, and the type of a variable that holds a value to be
stored ends where its name can begin. -/
structure Calm (env : Env) (n : Node) : Prop where
  conditions : ∀ m ∈ n.preorder, m.kind = "DoStmt" → ∀ c, m.inner[1]? = some c →
    ∀ k, hoists env k c = []
  values : ∀ m ∈ n.preorder, m.kind = "CaseStmt" → ∀ c, m.inner[0]? = some c → ∀ k, hoists env k c = []
  copies : ∀ m ∈ n.preorder, ∀ ps, copyStmtParts? env m = some ps →
    ∀ k, ps.flatMap (Part.hoists (hoists env k) m) = []
  stores : ∀ m ∈ n.preorder, ∀ lhs rhs ivar raw, m.inner = [lhs, rhs] →
    strongIvar? env.cls lhs = .ok (some ivar) → lhs.belowCasts.qualTypeOr "id" = .ok raw →
    Text.Chars.closes (SourceType.mk raw).cType.toList = true

theorem Calm.of_mem (h : Calm env n) (hc : c ∈ n.preorder) : Calm env c := by
  have hsub := Node.preorder_subset_of_preorder n hc
  exact ⟨fun m hm => h.conditions m (hsub hm), fun m hm => h.values m (hsub hm),
    fun m hm => h.copies m (hsub hm), fun m hm => h.stores m (hsub hm)⟩

/-! ### Laying out code -/

/-- From one state to another, some code is laid out: its declarations and what is queued are all that
has been queued, with numbers of their own; and if nothing is queued at first and all is calm, then
nothing is queued in the end and the code is scoped. -/
structure Lays (env : Env) (calm : Prop) (D : List String) (s : State) (code : List Code) (s' : State) :
    Prop where
  discreet : Discreet s'
  adds : ∃ ds made, Adds env (tempDeclsAll code) s s' ds made
  inScope : calm → s.pending = [] → s'.pending = [] ∧ InScopeAll D code

namespace Lays

theorem nil (h : SameTemps s s') (hdiscreet : Discreet s') : Lays env calm D s [] s' where
  discreet := hdiscreet
  adds := ⟨[], [], by simpa using h.adds⟩
  inScope _ hs := ⟨h.pending.trans hs, trivial⟩

theorem refl (hs : Discreet s) : Lays env calm D s [] s := .nil (Steady.refl s).toSameTemps hs

theorem append (h : Lays env calm D s code t) (h' : Lays env calm (D ++ declaresAll code) t code' s') :
    Lays env calm D s (code ++ code') s' where
  discreet := h'.discreet
  adds := by
    obtain ⟨ds, made, hadds⟩ := h.adds
    obtain ⟨ds', made', hadds'⟩ := h'.adds
    rw [tempDeclsAll_append]
    exact ⟨_, _, hadds.trans hadds'⟩
  inScope hcalm hs := by
    obtain ⟨ht, hcode⟩ := h.inScope hcalm hs
    obtain ⟨hs', hcode'⟩ := h'.inScope hcalm ht
    exact ⟨hs', inScopeAll_append.mpr ⟨hcode, hcode'⟩⟩

theorem wrap (h : Lays env calm D s code s') (hdecls : tempDeclsAll code' = tempDeclsAll code)
    (hscoped : InScopeAll D code → InScopeAll E code') : Lays env calm E s code' s' where
  discreet := h.discreet
  adds := hdecls ▸ h.adds
  inScope hcalm hs := ⟨(h.inScope hcalm hs).1, hscoped (h.inScope hcalm hs).2⟩

theorem mono (h : Lays env calm D s code s') (hDE : D ⊆ E) : Lays env calm E s code s' :=
  h.wrap rfl (InScopeAll.mono code hDE)

theorem branch (hcond : Known D text) (h : Lays env calm D s code t) (h' : Lays env calm D t code' u) :
    Lays env calm D s [.branch depth text yesForm code noForm code'] u where
  discreet := h'.discreet
  adds := by
    obtain ⟨ds, made, hadds⟩ := h.adds
    obtain ⟨ds', made', hadds'⟩ := h'.adds
    exact ⟨ds ++ ds', made ++ made', by simpa [tempDecls] using hadds.trans hadds'⟩
  inScope hcalm hs := by
    obtain ⟨ht, hcode⟩ := h.inScope hcalm hs
    obtain ⟨hu, hcode'⟩ := h'.inScope hcalm ht
    exact ⟨hu, ⟨⟨hcond, hcode, hcode'⟩, trivial⟩⟩

theorem block (h : Lays env calm D s code s') : Lays env calm D s [.block depth code] s' :=
  h.wrap (by simp [tempDecls]) fun hcode =>
    ⟨hcode, trivial⟩

theorem temp {kind : TempKind} (hs : Discreet s) (hpending : s.pending = [])
    (hname : d.name = kind.nameOf s.temps) (hd : calm → DeclaresFrom D d) :
    Lays env calm D s [.temp depth d] { s with temps := s.temps + 1 } where
  discreet := hs.of_eq rfl rfl
  adds := by
    refine ⟨[d], [], by simp [tempDecls, hpending], by simp, by simp, ?_⟩
    simpa [hname] using NumberedFrom.one kind s.temps
  inScope hcalm _ := ⟨hpending, ⟨hd hcalm, trivial⟩⟩

theorem imp (h : Lays env calm D s code s') (hcalm : calm' → calm) : Lays env calm' D s code s' :=
  ⟨h.discreet, h.adds, fun hc => h.inScope (hcalm hc)⟩

theorem plain (hdiscreet : Discreet s) (hdecls : tempDeclsAll code = []) (hscoped : InScopeAll D code) :
    Lays env calm D s code s :=
  (refl (D := D) hdiscreet).wrap (by simpa using hdecls) fun _ => hscoped

theorem between (h : Lays env calm D t code u) (hfrom : SameTemps s t) (hto : SameTemps u s')
    (hdiscreet : Discreet s') : Lays env calm D s code s' where
  discreet := hdiscreet
  adds := by
    obtain ⟨ds, made, hadds⟩ := h.adds
    refine ⟨ds, made, ?_, ?_, hadds.functions, ?_⟩
    · rw [hto.pending, hadds.pending, hfrom.pending]
    · rw [hto.blocks, hadds.blocks, hfrom.blocks]
    · rw [hto.temps, ← hfrom.temps]
      exact hadds.numbered
  inScope hcalm hs := by
    obtain ⟨hu, hcode⟩ := h.inScope hcalm (hfrom.pending.trans hs)
    exact ⟨hto.pending.trans hu, hcode⟩

theorem lowerAll {lower : Node → Lower (List Code)} {cs : List Node}
    (hlower : ∀ c ∈ cs, ∀ {D s code s'}, Discreet s → Yields (lower c) env s code s' →
      Lays env calm D s code s')
    (hs : Discreet s) (h : Yields (Lowering.lowerAll lower cs) env s code s') : Lays env calm D s code s' := by
  induction cs generalizing D s code with
  | nil =>
    obtain ⟨rfl, rfl⟩ := yields_lowerAll_nil.mp h
    exact .refl hs
  | cons c cs ih =>
    obtain ⟨first, t, rest, hfirst, hrest, rfl⟩ := yields_lowerAll_cons.mp h
    obtain ⟨hc, hcs⟩ := forall_mem_cons.mp hlower
    have hlaid : Lays env calm D s first t := hc hs hfirst
    exact hlaid.append (ih hcs hlaid.discreet hrest)

end Lays

/-! ### What is queued before code -/

theorem declaresAll_temps : declaresAll (temps depth s) = declared s.pending := by
  unfold temps
  induction s.pending with
  | nil => rfl
  | cons d ds ih =>
    rw [map_cons, declaresAll, flatMap_cons]
    exact congrArg (d.name :: ·) ih

theorem inScopeAll_temps (h : InOrder D s.pending) : InScopeAll D (temps depth s) := by
  unfold temps
  generalize s.pending = ds at h
  induction ds generalizing D with
  | nil => exact inScopeAll_nil
  | cons d ds ih => exact ⟨h.1, ih h.2⟩

structure Prepared (env : Env) (calm : Prop) (depth : Nat) (s : State) (text : String) (t : State) :
    Prop where
  lays : Lays env calm [] s (temps depth t) t.flushed
  known : Known (declared t.pending) text

theorem Grows.prepared (h : Grows env s t) (hknown : Known (declared t.pending) text) :
    Prepared env calm depth s text t := by
  obtain ⟨ht, ds, made, hadds, hordered⟩ := h
  refine ⟨⟨⟨ht.literals, ht.scopes⟩, ⟨ds, made, ?_⟩, fun _ hpending => ⟨rfl, inScopeAll_temps ?_⟩⟩, hknown⟩
  · rw [tempDeclsAll_temps]
    exact ⟨by simpa using hadds.pending, hadds.blocks, hadds.functions, hadds.numbered⟩
  · have ht : t.pending = s.pending ++ ds := hadds.pending
    rw [ht, hpending]
    rwa [hpending] at hordered

theorem Prepared.append (h : Prepared env calm depth s text t)
    (hcode : Lays env calm (declared t.pending) t.flushed code s') :
    Lays env calm [] s (temps depth t ++ code) s' :=
  h.lays.append (by rwa [nil_append, declaresAll_temps])

theorem Prepared.append_plain (h : Prepared env calm depth s text t) (hdecls : tempDeclsAll code = [])
    (hscoped : InScopeAll (declared t.pending) code) :
    Lays env calm [] s (temps depth t ++ code) t.flushed :=
  h.append (.plain h.lays.discreet hdecls hscoped)

theorem tempsIn_countCall {root verb value : String} (hverb : verb = "retain" ∨ verb = "release")
    (hroot : tempsIn root = []) : tempsIn (countCall root verb value) = tempsIn value := by
  have hcount : tempsIn (root ++ "_" ++ verb) = [] := by
    rw [String.append_assoc]
    refine tempsIn_append_count ?_ hroot
    rcases hverb with rfl | rfl
    · exact .inl rfl
    · exact .inr rfl
  unfold countCall
  generalize root ++ "_" ++ verb = f at hcount
  simp (disch := simp; decide) [hcount, hroot]

theorem inScopeAll_of_forall (h : ∀ c ∈ code, InScope D c ∧ declares c = []) : InScopeAll D code := by
  induction code with
  | nil => exact inScopeAll_nil
  | cons c code ih =>
    rw [forall_mem_cons] at h
    rw [inScopeAll_cons, h.1.2, append_nil]
    exact ⟨h.1.1, ih h.2⟩

section

variable (hroot : tempsIn env.root = [])

include hroot

theorem inScope_retain {value : String} (h : Known D value) :
    InScope D (.retain depth env.root value) := by
  rw [InScope, tempsIn_countCall (.inl rfl) hroot]
  exact h

theorem inScope_release {value : String} (h : Known D value) :
    InScope D (.release depth env.root value) := by
  rw [InScope, tempsIn_countCall (.inr rfl) hroot]
  exact h

theorem inScopeAll_releases (hs : Discreet s)
    (hnames : names ⊆ s.scopes.flatten) : InScopeAll D (releases depth env.root names) := by
  refine inScopeAll_of_forall fun c hc => ?_
  obtain ⟨name, hname, rfl⟩ := mem_map.mp hc
  exact ⟨inScope_release hroot (known_of_eq_nil (hs.scopes name (hnames hname))), rfl⟩

theorem lays_releases (hs : Discreet s)
    (hnames : names ⊆ s.scopes.flatten) : Lays env calm D s (releases depth env.root names) s :=
  .plain hs tempDeclsAll_releases (inScopeAll_releases hroot hs hnames)

theorem lays_exitCode (hs : Discreet s) (depth : Nat) (ns : List Node) :
    Lays env calm D s (exitCode depth env.root s ns) s := by
  unfold exitCode
  split
  · exact .refl hs
  · refine lays_releases hroot hs fun name hname => ?_
    have hhead : name ∈ s.scopes.headD [] := mem_of_mem_filter hname
    cases hscopes : s.scopes with
    | nil => simp [hscopes] at hhead
    | cons scope rest => simp_all

end

theorem discreet_left (hs : Discreet s) : Discreet s.left where
  literals := hs.literals
  scopes name hname := by
    refine hs.scopes name ?_
    obtain ⟨scope, hscope, hname⟩ := mem_flatten.mp hname
    exact mem_flatten.mpr ⟨scope, mem_of_mem_tail hscope, hname⟩

theorem discreet_openScope (hs : Discreet s) (h : ∀ name ∈ names, tempsIn name.plain = []) :
    Discreet { s with scopes := names :: s.scopes } where
  literals := hs.literals
  scopes := by simpa [or_imp, forall_and] using ⟨h, by simpa using hs.scopes⟩

/-! ### Loops over collections -/

theorem nameOf_iterator (k : Nat) : TempKind.iterator.nameOf k = "_oz_iter" ++ toString k := by
  rw [TempKind.nameOf, TempKind.stem, TempKind.suffix, String.append_empty]

theorem declaresFrom_store {kind : TempKind} (htype : tempsIn type = [])
    (hcloses : Text.Chars.closes type.toList = true) (hvalue : Known D value) :
    DeclaresFrom D (storeDecl type (kind.nameOf k) value) := by
  refine ⟨type, "", value, ?_, hcloses, htype, by simp [storeDecl], .inl rfl, hvalue⟩
  rw [storeDecl, String.append_empty]

theorem declaresFrom_iterator (h : Known D text) :
    DeclaresFrom D (iteratorDecl (TempKind.iterator.nameOf k) text) := by
  have hvalue : Known D ("(struct OZObject *)OZ_PROTOCOL_SEND_iter((struct OZObject *)" ++ text ++ ")") := by
    simpa (disch := simp; decide) [Known] using h
  have hdecl : iteratorDecl (TempKind.iterator.nameOf k) text =
      storeDecl "struct OZObject *" (TempKind.iterator.nameOf k)
        ("(struct OZObject *)OZ_PROTOCOL_SEND_iter((struct OZObject *)" ++ text ++ ")") := by
    rw [iteratorDecl, storeDecl, show ");" = ")" ++ ";" from rfl,
      show " = (struct OZObject *)OZ_PROTOCOL_SEND_iter((struct OZObject *)" =
        " = " ++ "(struct OZObject *)OZ_PROTOCOL_SEND_iter((struct OZObject *)" from rfl]
    simp only [String.append_assoc]
  rw [hdecl]
  exact declaresFrom_store (by decide +kernel) (by decide +kernel) hvalue

theorem declaresFrom_cursor (h : TempKind.iterator.nameOf l ∈ D) :
    DeclaresFrom D (cursorDecl (TempKind.receiver.nameOf k) (TempKind.iterator.nameOf l)) :=
  declaresFrom_store (by decide +kernel) (by decide +kernel) (known_nameOf h)

theorem known_forInHead (htype : tempsIn type = [])
    (hname : tempsIn name.plain = []) (hk : TempKind.receiver.nameOf k ∈ D) :
    Known D (forInHead type (TempKind.receiver.nameOf k) name) := by
  have hsend : tempsIn ("OZ_PROTOCOL_SEND_next(" ++ TempKind.receiver.nameOf k ++ ")") =
      [TempKind.receiver.nameOf k] := by
    simp (disch := simp; decide)
  have hnext : tempsIn (nextText type (TempKind.receiver.nameOf k)) = [TempKind.receiver.nameOf k] := by
    unfold nextText
    split
    · exact hsend
    · rw [isPlainCast_of_type htype, hsend]
  unfold forInHead
  generalize nextText type (TempKind.receiver.nameOf k) = next at hnext
  simpa (disch := simp; decide) [Known, htype, hname, hnext] using hk

theorem lays_collectionLoop
    (hs : Discreet s) (hpending : s.pending = []) (hiterator : iterator.name = TempKind.iterator.nameOf s.temps)
    (hcursor : cursor.name = TempKind.receiver.nameOf (s.temps + 1)) (hfirst : DeclaresFrom D iterator)
    (hsecond : DeclaresFrom (D ++ [iterator.name]) cursor)
    (hhead : Known (D ++ [iterator.name] ++ [cursor.name]) head)
    (hinside : Lays env calm [] { s with temps := s.temps + 2, scopes := [name] :: s.scopes } code u) :
    Lays env calm D s [.block depth [.temp (depth + 1) iterator, .temp (depth + 1) cursor,
      .forLoop (depth + 1) head .braced code]] u.left := by
  have hiterator : Lays env calm D s [.temp (depth + 1) iterator] { s with temps := s.temps + 1 } :=
    .temp hs hpending hiterator fun _ => hfirst
  have hcursor : Lays env calm (D ++ declaresAll [.temp (depth + 1) iterator]) { s with temps := s.temps + 1 }
      [.temp (depth + 1) cursor] { s with temps := s.temps + 2 } :=
    .temp hiterator.discreet hpending hcursor fun _ => hsecond
  have hinside : Lays env calm (D ++ [iterator.name] ++ [cursor.name]) { s with temps := s.temps + 2 }
      code u.left :=
    (hinside.mono (nil_subset _)).between ⟨rfl, rfl, rfl⟩ ⟨rfl, rfl, rfl⟩ (discreet_left hinside.discreet)
  have hloop : Lays env calm (D ++ [iterator.name] ++ [cursor.name]) { s with temps := s.temps + 2 }
      [.forLoop (depth + 1) head .braced code] u.left :=
    hinside.wrap (by simp [tempDecls]) fun hscoped =>
      ⟨⟨hhead, hscoped⟩, trivial⟩
  exact ((hiterator.append hcursor).append (by simpa [declaresAll, declares] using hloop)).block

/-! ### Names and places -/

theorem tempsIn_lockName (number : Nat) : tempsIn (lockName number) = [] := by
  unfold lockName
  split
  · decide +kernel
  · apply tempsIn_eq_nil_of_word
    · intro c hc
      rw [String.toList_append, mem_append] at hc
      have hword : ∀ c ∈ "_sync".toList, Text.isWord c = true :=
        all_iff_forall_prop.mp (by decide +kernel)
      exact hc.elim (hword c) fun hc => Text.isWord_of_isDigit (isDigit_of_mem_toString hc)
    · rw [Bool.eq_false_iff]
      intro htemp
      have hletter := letter_of_isTemp htemp
      simp [String.toList_append] at hletter

theorem tempsIn_declare (hn : Discernible env n) (h : declaredType n = .ok type) :
    tempsIn (type.declare (declaredName n)) = [] := by
  obtain ⟨raw, hraw, htype⟩ := bind_eq_ok.mp h
  obtain ⟨ref, href, hqual⟩ := bind_eq_ok.mp hraw
  have hdeclare : n.declareText = type.declare (declaredName n) := by
    rw [Node.declareText, Slot.present?_bind href (f := TypeRef.qual) rfl, pure_eq_ok.mp hqual,
      checked_eq_ok htype]
    rfl
  rw [← hdeclare]
  exact hn.own (by simp [Node.texts])

theorem discreet_declaring (hs : Discreet s) (hn : Discernible env n) (type : SourceType) :
    Discreet (s.declaring n type) := by
  have hname : tempsIn (declaredName n).plain = [] := hn.nameOr (by decide +kernel)
  unfold State.declaring State.track
  split
  · split
    · next scope rest hscopes =>
      refine ⟨hs.literals, fun name hmem => ?_⟩
      have hscope := hs.scopes name
      rw [hscopes] at hscope
      simp only [flatten_cons, mem_append, mem_addNew] at hmem hscope
      rcases hmem with (hmem | rfl) | hmem
      · exact hscope (.inl hmem)
      · exact hname
      · exact hscope (.inr hmem)
    · exact hs
  · exact hs

theorem sameTemps_declaring (type : SourceType) : SameTemps s (s.declaring n type) := by
  unfold State.declaring State.track
  split
  · split <;> exact ⟨rfl, rfl, rfl⟩
  · exact ⟨rfl, rfl, rfl⟩

theorem scopesInLoop_subset : s.scopesInLoop ⊆ s.scopes := by
  unfold State.scopesInLoop
  split
  · exact take_subset _ _
  · exact nil_subset _

theorem Discernible.trackedVar (hn : Discernible env n) (h : trackedVar? s n = .ok (some var)) :
    tempsIn var.plain = [] := by
  simp only [trackedVar?] at h
  split at h
  · cases pure_eq_ok.mp h
  · obtain ⟨name, hname, h⟩ := bind_eq_ok.mp h
    split at h
    · cases pure_eq_ok.mp h
    · obtain ⟨isTracked, -, h⟩ := bind_eq_ok.mp h
      split at h
      · cases pure_eq_ok.mp h
        exact (hn.of_mem (Node.unwrap_mem_preorder _ n)).referenced hname
      · cases pure_eq_ok.mp h

theorem Discernible.strongIvar (hn : Discernible env n)
    (h : strongIvar? env.cls n = .ok (some ivar)) : tempsIn ivar.plain = [] := by
  simp only [strongIvar?] at h
  split at h
  · cases pure_eq_ok.mp h
  · obtain ⟨decl, hdecl, h⟩ := bind_eq_ok.mp h
    obtain ⟨isStrong, -, h⟩ := bind_eq_ok.mp h
    split at h
    · cases pure_eq_ok.mp h
      exact (hn.of_mem (Node.unwrap_mem_preorder _ n)).declName hdecl
    · cases pure_eq_ok.mp h

theorem inScopeAll_storeCode (hroot : tempsIn env.root = [])
    (hivar : tempsIn ivar.plain = []) (hvalue : Known D value) :
    InScopeAll D (storeCode depth env.root ivar value) := by
  have htarget : Known D s!"self->{ivar}" := by
    simp (disch := simp; decide) [Known, hivar]
  refine ⟨inScope_release hroot htarget, ⟨?_, trivial⟩⟩
  simpa [declares] using ⟨htarget, hvalue⟩

/-! ### Statements in statements -/

structure LaysBelow (env : Env) (k : Nat) : Prop where
  expr : ∀ {n}, Discernible env n → Composes env ((level k).expr n)
  stmt : ∀ {depth n s code s'}, Discernible env n → Discreet s →
    Yields ((level k).stmt depth n) env s code s' → Lays env (Calm env n) [] s code s'
  branch : ∀ {depth n s code s'}, Discernible env n → Discreet s →
    Yields ((level k).branch depth n) env s code s' → Lays env (Calm env n) [] s code s'

structure Quiet (env : Env) (calm : Prop) (s : State) (text : String) (t : State) : Prop where
  lays : Lays env calm [] s [] t
  plain : calm → t.pending = [] → tempsIn text = []

namespace LaysBelow

variable (hb : LaysBelow env k) (hn : Discernible env n)

section Parts

variable (hc : c ∈ n.preorder) (hs : Discreet s)

include hb hn hc hs

theorem prepared (depth : Nat) (h : Yields ((level k).expr c) env s text t) : Prepared env (Calm env n) depth s text t := by
  obtain ⟨hgrows, hknown⟩ := hb.expr (hn.of_mem hc) s text t hs h
  exact hgrows.prepared hknown

theorem lays_quiet (h : Yields ((level k).expr c) env s text t) (hcalm : calm → ∀ k, hoists env k c = []) :
    Quiet env calm s text t := by
  obtain ⟨⟨ht, ds, made, hadds, -⟩, hknown⟩ := hb.expr (hn.of_mem hc) s text t hs h
  constructor
  · refine ⟨ht, ⟨ds, made, by simpa using hadds⟩, fun hc hpending => ⟨?_, trivial⟩⟩
    obtain ⟨es, hes, ht⟩ := pending_of_yields_expr h
    rw [hcalm hc k] at hes
    cases hes
    rw [ht, hpending, append_nil]
  · intro _ hpending
    rw [hpending] at hknown
    exact subset_nil.mp hknown

theorem lays_stmt (h : Yields ((level k).stmt depth c) env s code s') : Lays env (Calm env n) D s code s' :=
  ((hb.stmt (hn.of_mem hc) hs h).imp fun hcalm => hcalm.of_mem hc).mono (nil_subset _)

theorem lays_branch (h : Yields ((level k).branch depth c) env s code s') : Lays env (Calm env n) D s code s' :=
  ((hb.branch (hn.of_mem hc) hs h).imp fun hcalm => hcalm.of_mem hc).mono (nil_subset _)

omit hc hs in
theorem lays_stmts
    (hcs : cs ⊆ n.preorder) (hs : Discreet s) (h : Yields (lowerAll ((level k).stmt depth) cs) env s code s') :
    Lays env (Calm env n) D s code s' :=
  .lowerAll (fun _ hc _ _ _ _ hs => hb.lays_stmt hn (hcs hc) hs) hs h

theorem lays_scope (h : Yields (lowerScope (level k) depth [] c) env s code s') : Lays env (Calm env n) D s code s' := by
  obtain ⟨body, t, hbody, rfl, rfl⟩ := entered_of_yields h
  have hentered : Discreet (s.entered []) := ⟨hs.literals, by simpa [State.entered] using hs.scopes⟩
  have hinside := hb.lays_stmts (D := D) hn (Node.inner_subset_preorder hc) hentered hbody
  have hcode := hinside.append (lays_exitCode hn.root hinside.discreet (depth + 1) c.inner)
  rw [map_nil, nil_append]
  exact hcode.between ⟨rfl, rfl, rfl⟩ ⟨rfl, rfl, rfl⟩ (discreet_left hinside.discreet)

theorem lays_braced (h : Yields (lowerBraced (level k) depth c) env s code s') : Lays env (Calm env n) D s code s' := by
  unfold lowerBraced at h
  split at h
  · exact hb.lays_scope hn hc hs h
  · exact hb.lays_stmt hn hc hs h

theorem lays_loopBody (h : Yields (lowerLoopBody (level k) depth c) env s code s') : Lays env (Calm env n) D s code s' := by
  obtain ⟨t, ht, rfl⟩ := yields_lowerLoopBody.mp h
  have hopen : Discreet { s with loops := s.scopes.length :: s.loops } := hs.of_eq rfl rfl
  have hbody := hb.lays_braced (D := D) hn hc hopen ht
  exact hbody.between ⟨rfl, rfl, rfl⟩ ⟨rfl, rfl, rfl⟩ (hbody.discreet.of_eq rfl rfl)

end Parts

variable (hs : Discreet s)

include hb hn hs

omit hb hn in
theorem lays_body (hlower : ∀ c ∈ part, Yields (lower c) env s code s' → Lays env (Calm env n) D s code s')
    (h : LoweredBody lower env s part form code s') : Lays env (Calm env n) D s code s' := by
  cases h with
  | absent => exact .refl hs
  | braced h => exact hlower _ rfl h

theorem lays_lowered_branch (h : LoweredBranch (level k) env depth n s code s') :
    Lays env (Calm env n) [] s code s' := by
  cases h with
  | nothing _ => exact .refl hs
  | @parts cond parts other _ _ _ _ _ t _ _ hinner hother hcond hyes hno =>
    have hpart : ∀ c ∈ parts, c ∈ n.preorder := fun c hc => Node.mem_preorder_of_inner (by simp [hinner, hc])
    have hcond := hb.prepared hn (Node.mem_preorder_of_inner (by simp [hinner])) hs depth hcond
    have hyes := lays_body (D := declared t.pending) hcond.lays.discreet (fun c hc h =>
      hb.lays_braced hn (hpart c (mem_of_mem_head? (Option.filter_eq_some_iff.mp hc).1))
        hcond.lays.discreet h) hyes
    have hmem : ∀ c ∈ other, c ∈ n.preorder := by
      intro c hc
      rw [hother] at hc
      split at hc
      · exact hpart c (mem_of_mem_tail (mem_of_mem_head? (Option.filter_eq_some_iff.mp hc).1))
      · cases hc
    refine hcond.append (.branch hcond.known hyes ?_)
    cases hno with
    | absent => exact .refl hyes.discreet
    | braced _ h => exact hb.lays_braced hn (hmem _ rfl) hyes.discreet h
    | chained _ h => exact hb.lays_branch hn (hmem _ rfl) hyes.discreet h

/-! ### Heads of loops -/

omit hs in
theorem composesParts : ComposesParts env n (level k).expr :=
  fun _ hc => hb.expr (hn.of_mem hc)

omit hs in
theorem composes_headPart (hpart : ∀ c ∈ part, c ∈ n.preorder) :
    Composes env (headPart (level k).expr part) := by
  intro s text s' hs h
  unfold headPart at h
  split at h
  · next c =>
    split at h
    · obtain ⟨rfl, rfl⟩ := yields_pure.mp h
      exact ⟨.refl hs, known_of_eq_nil (by decide +kernel)⟩
    · exact hb.expr (hn.of_mem (hpart c rfl)) s text s' hs h
  · obtain ⟨rfl, rfl⟩ := yields_pure.mp h
    exact ⟨.refl hs, known_of_eq_nil (by decide +kernel)⟩

omit hs in
theorem composes_initPart (hc : c ∈ n.preorder) : Composes env (initPart (level k).expr c) := by
  intro s text s' hs h
  unfold initPart at h
  split at h
  · split at h
    · next var hvar =>
      have hvar : var ∈ n.preorder :=
        Node.inner_subset_preorder hc (mem_of_mem_head? (Option.filter_eq_some_iff.mp hvar).1)
      have hdiscernible := hn.of_mem hvar
      obtain ⟨raw, hraw, h⟩ := yields_liftM_bind.mp h
      obtain ⟨type, htype, h⟩ := yields_liftM_bind.mp h
      have htype : tempsIn type.cType = [] := by
        rw [checked_eq_ok htype]
        exact hdiscernible.cType (by decide +kernel) hraw
      have hname : tempsIn (var.attrs.name.getD "i").plain = [] := hdiscernible.nameOr (by decide +kernel)
      replace h := yields_bind_children h
      split at h
      · next e he =>
        have he : e ∈ n.preorder := Node.inner_subset_preorder hvar (mem_of_find?_eq_some he)
        obtain ⟨value, hvalue, rfl⟩ := yields_bind_pure.mp h
        obtain ⟨hgrows, hknown⟩ := hb.expr (hn.of_mem he) s value s' hs hvalue
        refine ⟨hgrows, ?_⟩
        simpa (disch := simp; decide) [Known, htype, hname] using hknown
      · obtain ⟨rfl, rfl⟩ := yields_pure.mp h
        refine ⟨.refl hs, known_of_eq_nil ?_⟩
        simp (disch := simp; decide) [htype, hname]
    · obtain ⟨rfl, rfl⟩ := yields_pure.mp h
      exact ⟨.refl hs, known_of_eq_nil (by decide +kernel)⟩
  · exact hb.composes_headPart hn (fun m hm => Option.some.inj hm ▸ hc) s text s' hs h

theorem prepared_head {cond step : Option Node}
    (hinit : init ∈ n.preorder) (hcond : ∀ c ∈ cond, c ∈ n.preorder) (hstep : ∀ c ∈ step, c ∈ n.preorder)
    (ha : Yields (initPart (level k).expr init) env s a t) (hb' : Yields (headPart (level k).expr cond) env t b u)
    (hc : Yields (headPart (level k).expr step) env u c v) :
    Prepared env calm depth s (a ++ "; " ++ b ++ "; " ++ c) v := by
  obtain ⟨ht, ha⟩ := hb.composes_initPart hn hinit s a t hs ha
  obtain ⟨hu, hb'⟩ := hb.composes_headPart hn hcond t b u ht.discreet hb'
  obtain ⟨hv, hc⟩ := hb.composes_headPart hn hstep u c v hu.discreet hc
  refine (ht.trans (hu.trans hv)).prepared ?_
  simpa (disch := simp; decide) [Known] using
    ⟨(ha.mono hu.subset).mono hv.subset, hb'.mono hv.subset, hc⟩

/-! ### Collections and locks -/

theorem lays_items {rest : List Node}
    (hinner : n.inner = decl :: collection :: body :: rest) (hvar : decl.firstChild = .ok var)
    (htype : var.qualTypeOr "id" = .ok (.text raw)) (htext : Yields ((level k).expr collection) env s text t)
    (hbody : Yields (lowerLoopBody (level k) (depth + 1) body) env { t.flushed with
      temps := t.temps + 2, scopes := [var.attrs.name.getD "obj"] :: t.scopes } code u) :
    Lays env (Calm env n) [] s (temps depth t ++ [.block depth
      [.temp (depth + 1) ⟨"_oz_iter" ++ toString t.temps, iteratorText ("_oz_iter" ++ toString t.temps) text⟩,
       .temp (depth + 1) ⟨"_oz_recv" ++ toString (t.temps + 1),
        cursorText ("_oz_recv" ++ toString (t.temps + 1)) ("_oz_iter" ++ toString t.temps)⟩,
       .forLoop (depth + 1) (forInHead (itemType raw) ("_oz_recv" ++ toString (t.temps + 1))
        (var.attrs.name.getD "obj")) .braced code]]) u.left := by
  have hvar := (hn.of_inner (by simp [hinner])).firstChild hvar
  have hkey := hvar.nameOr (d := "obj") (by decide +kernel)
  have hitem : tempsIn (Node.loopType (.text raw)) = [] :=
    hvar.typeText (f := Node.loopType) (by simp) (by decide +kernel) htype
  have hcollection := hb.prepared hn (Node.mem_preorder_of_inner (by simp [hinner])) hs depth htext
  have hopened := discreet_openScope hcollection.lays.discreet (forall_mem_singleton.mpr hkey)
  have hmem : body ∈ n.preorder := Node.mem_preorder_of_inner (by simp [hinner])
  have hlaid := fun hcounted => hb.lays_loopBody (D := []) hn hmem hcounted hbody
  have hinside := hlaid (hopened.of_eq rfl rfl)
  have hhead := known_forInHead (D := declared t.pending ++ [TempKind.iterator.nameOf t.temps]
    ++ [TempKind.receiver.nameOf (t.temps + 1)]) hitem hkey
    (mem_append_right _ (mem_singleton_self _))
  rw [nameOf_receiver, nameOf_iterator] at hhead
  refine hcollection.append (lays_collectionLoop hcollection.lays.discreet rfl
    (nameOf_iterator _).symm (nameOf_receiver _).symm ?_ ?_ hhead hinside)
  · rw [← nameOf_iterator]
    exact declaresFrom_iterator hcollection.known
  · rw [← nameOf_iterator, ← nameOf_receiver]
    exact declaresFrom_cursor (mem_append_right _ (mem_singleton_self _))

theorem lays_lock (hinner : n.inner = object :: body :: rest)
    (htext : Yields ((level k).expr object) env { s with locks := s.locks + 1 } text t)
    (hlock : LoweredLock (level k) env (depth + 1) body
      { t.flushed with scopes := [.text (lockName (s.locks + 1))] :: t.scopes } code u) :
    Lays env (Calm env n) [] s (temps depth t ++ [.block depth (.declare (depth + 1) (lockName (s.locks + 1))
      (lockHead env.root (lockName (s.locks + 1)) text) :: code
        ++ exitCode (depth + 1) env.root u body.inner)]) u.left := by
  have hname := tempsIn_lockName (s.locks + 1)
  generalize lockName (s.locks + 1) = name at hlock hname
  have hbody : body ∈ n.preorder := Node.mem_preorder_of_inner (by simp [hinner])
  have hcounted : Discreet { s with locks := s.locks + 1 } := hs.of_eq rfl rfl
  have hobject := hb.prepared hn (Node.mem_preorder_of_inner (by simp [hinner])) hcounted depth htext
  have hopened : Discreet { t.flushed with scopes := [.text name] :: t.flushed.scopes } :=
    discreet_openScope hobject.lays.discreet (forall_mem_singleton.mpr hname)
  have hdeclare : Known (declared t.pending) (lockHead env.root name text) := by
    unfold lockHead
    simpa (disch := simp; decide) [Known, hname, hn.root] using hobject.known
  generalize lockHead env.root name text = head at hdeclare
  have hstmts : Lays env (Calm env n) (declared t.pending)
      { t.flushed with scopes := [.text name] :: t.flushed.scopes } code u := by
    cases hlock with
    | block _ h => exact hb.lays_stmts hn (Node.inner_subset_preorder hbody) hopened h
    | empty _ => exact .refl hopened
  have hcode := hstmts.append (lays_exitCode hn.root hstmts.discreet (depth + 1) body.inner)
  have hinside : Lays env (Calm env n) (declared t.pending) t.flushed
      (code ++ exitCode (depth + 1) env.root u body.inner) u.left :=
    hcode.between ⟨rfl, rfl, rfl⟩ ⟨rfl, rfl, rfl⟩ (discreet_left hcode.discreet)
  have hheld : Lays env (Calm env n) (declared t.pending) t.flushed [.declare (depth + 1) name head] t.flushed :=
    .plain hobject.lays.discreet rfl ⟨hdeclare, trivial⟩
  have hblock := hheld.append (hinside.mono (subset_append_left _ _))
  exact (hobject.append hblock.block).between ⟨rfl, rfl, rfl⟩ ⟨rfl, rfl, rfl⟩ (discreet_left hcode.discreet)

/-! ### Expressions as statements -/

omit hs in
theorem composesBelow : ComposesBelow env k n where
  parts := hb.composesParts hn
  bodies body hbody s code s' hs h := by
    obtain ⟨inside, t, hinside, h⟩ := yields_bind.mp h
    obtain ⟨rfl, rfl⟩ := yields_pure.mp h
    have hlaid := hb.lays_scope (D := []) hn hbody hs hinside
    exact ⟨hlaid.discreet, by simpa [tempDecls] using hlaid.adds⟩

theorem lays_written (h : Yields (exprStep (level k) n) env s text t) :
    Lays env calm [] s (temps depth t ++ [.line depth (text ++ ";")]) t.flushed := by
  obtain ⟨hgrows, hknown⟩ := composes_exprStep hn (hb.composesBelow hn) s text t hs h
  have hexpr : Prepared env calm depth s text t := hgrows.prepared hknown
  refine hexpr.append_plain rfl ⟨?_, trivial⟩
  simpa (disch := simp; decide) using hexpr.known

theorem lays_stored {ivar : Name} (hinner : n.inner = [lhs, rhs])
    (hivar : strongIvar? env.cls lhs = .ok (some ivar))
    (h : Stored (level k).expr env depth ivar lhs rhs s code s') :
    Lays env (Calm env n) [] s code s' := by
  have hlhs : Discernible env lhs := hn.of_inner (by simp [hinner])
  have hrhs : rhs ∈ n.preorder := Node.mem_preorder_of_inner (by simp [hinner])
  have hplain := hlhs.strongIvar hivar
  cases h with
  | @param var text t hover _ htext =>
    have hvalue := hb.prepared hn hrhs hs depth htext
    refine hvalue.append_plain rfl (⟨inScope_retain hn.root hvalue.known, ?_⟩)
    simpa [declares] using inScopeAll_storeCode hn.root hplain hvalue.known
  | @«local» var text t tracked hover _ htext _ =>
    have hvalue := hb.prepared hn hrhs hs depth htext
    have hlaid : Lays env (Calm env n) [] s (temps depth t ++ storeCode depth env.root ivar text) t.flushed :=
      hvalue.append_plain rfl (inScopeAll_storeCode hn.root hplain hvalue.known)
    have hsteady : Steady t.flushed (if tracked then t.flushed.consume var else t.flushed) := by
      split
      · exact steady_consume _ _
      · exact .refl _
    exact hlaid.between ⟨rfl, rfl, rfl⟩ hsteady.toSameTemps (hsteady.discreet hlaid.discreet)
  | @other text t raw _ hraw htext =>
    have hvalue := hb.prepared hn hrhs hs depth htext
    have htype := (hlhs.of_mem (Node.unwrap_mem_preorder _ lhs)).cType (by decide +kernel) hraw
    rw [← nameOf_receiver]
    have hstore : Lays env (Calm env n) (declared t.pending) t.flushed [.temp depth (storeDecl
        (SourceType.mk raw).cType (TempKind.receiver.nameOf t.temps) text)] { t.flushed with temps := t.temps + 1 } := by
      refine .temp hvalue.lays.discreet rfl rfl fun hcalm => declaresFrom_store htype ?_ hvalue.known
      exact hcalm.stores n (Node.mem_preorder_self n) lhs rhs ivar raw hinner hivar hraw
    refine hvalue.append (hstore.append (.plain hstore.discreet rfl ?_))
    exact inScopeAll_storeCode hn.root hplain (known_nameOf (by simp [declaresAll, declares, storeDecl]))

theorem lays_assign (h : LoweredAssign (level k) env depth n s code s') : Lays env (Calm env n) [] s code s' := by
  cases h with
  | ivar hinner hivar h => exact hb.lays_stored hn hs hinner hivar h
  | @«variable» lhs rhs var text t tracked hinner _ hvar htext _ =>
    have hvalue := hb.prepared hn (Node.mem_preorder_of_inner (by simp [hinner])) hs depth htext
    have hvar := (hn.of_inner (by simp [hinner])).trackedVar (trackedVar_eq_some.mpr hvar)
    have hassign : InScopeAll (declared t.pending)
        [.release depth env.root var.plain, .assign depth var.plain text] := by
      refine ⟨inScope_release hn.root (known_of_eq_nil hvar), ⟨?_, trivial⟩⟩
      simpa [declares, hvar] using hvalue.known
    have hlaid : Lays env (Calm env n) [] s (temps depth t ++ ((if tracked.isSome then
        [.retain depth env.root text] else [])
        ++ [.release depth env.root var.plain, .assign depth var.plain text])) t.flushed := by
      split
      · refine hvalue.append_plain rfl (⟨inScope_retain hn.root hvalue.known, ?_⟩)
        simpa [declares] using hassign
      · exact hvalue.append_plain rfl hassign
    rw [append_assoc]
    exact hlaid.between ⟨rfl, rfl, rfl⟩ ⟨rfl, rfl, rfl⟩ (hlaid.discreet.of_eq rfl rfl)
  | expr _ htext => exact hb.lays_written hn hs htext

/-! ### Returns and declarations -/

theorem lays_returned (h : Returned (level k).expr env depth n s code s') : Lays env (Calm env n) [] s code s' := by
  have hreleases : ∀ {D} var, Lays env (Calm env n) D s (releases depth env.root (s.ownedAtReturn var)) s :=
    fun var => lays_releases hn.root hs fun name hname => (mem_ownedAtReturn.mp hname).1
  cases h with
  | bare _ =>
    refine (hreleases none).append (.plain hs rfl ⟨?_, trivial⟩)
    simp
  | @value e v rest var text t hinner _ hv htext =>
    have hv : v ∈ n.preorder := Node.mem_preorder_of_part (part_returnedAt (n := n) (by simp [hinner]) hv)
    have hvalue := hb.prepared hn hv hs depth htext
    rw [append_assoc]
    refine (hreleases var).append ((hvalue.append_plain rfl ?_).mono (nil_subset _))
    refine ⟨?_, trivial⟩
    rw [InScope]
    exact hvalue.known

theorem lays_varDecl (hc : c ∈ n.preorder)
    (h : Yields (lowerVarDecl (level k).expr depth c) env s code s') : Lays env (Calm env n) [] s code s' := by
  have hdiscernible := hn.of_mem hc
  cases declared_of_yields h with
  | shared _ => exact .refl hs
  | @bare type _ htype _ =>
    have hdiscreet := discreet_declaring hs hdiscernible type
    have hdeclare : InScopeAll []
        [.declare depth (declaredName c).plain (type.declare (declaredName c))] :=
      ⟨known_of_eq_nil (tempsIn_declare hdiscernible htype), trivial⟩
    exact (Lays.plain hdiscreet rfl hdeclare).between (sameTemps_declaring type) ⟨rfl, rfl, rfl⟩ hdiscreet
  | @value type e text t retained _ htype hinit htext hkeeps =>
    have he : e ∈ n.preorder :=
      Node.inner_subset_preorder hc (mem_of_find?_eq_some (Option.filter_eq_some_iff.mp hinit).1)
    have hvalue := hb.prepared hn he (discreet_declaring hs hdiscernible type) depth htext
    have hname : tempsIn (declaredName c).plain = [] := hdiscernible.nameOr (by decide +kernel)
    have hdeclare : InScope (declared t.pending) (.declare depth (declaredName c).plain
        (type.declare (declaredName c) ++ " = " ++ text)) := by
      simpa (disch := simp; decide) [tempsIn_declare hdiscernible htype] using hvalue.known
    have hlaid : Lays env (Calm env n) [] (s.declaring c type) (temps depth t ++ (.declare depth
        (declaredName c).plain (type.declare (declaredName c) ++ " = " ++ text)
        :: if retained then [.retain depth env.root (declaredName c).plain] else [])) t.flushed := by
      split
      · refine hvalue.append_plain rfl (⟨hdeclare, ⟨?_, trivial⟩⟩)
        exact inScope_retain hn.root (known_of_eq_nil hname)
      · exact hvalue.append_plain rfl (⟨hdeclare, trivial⟩)
    rw [append_assoc]
    exact hlaid.between (sameTemps_declaring type) ⟨rfl, rfl, rfl⟩ hlaid.discreet

/-! ### All statements -/

theorem lays_lowered (h : Lowered (level k) env depth n s code s') : Lays env (Calm env n) [] s code s' := by
  have hjump : ∀ {c}, declares c = [] → tempDecls c = [] → InScope [] c →
      Lays env (Calm env n) [] s (releases depth env.root (s.scopesInLoop.flatMap s.owned) ++ [c]) s := by
    intro c hdeclares hdecls hscoped
    refine (lays_releases hn.root hs fun name hname => ?_).append
      (.plain hs (by simpa using hdecls) (⟨InScope.mono c (nil_subset _) hscoped, trivial⟩))
    obtain ⟨scope, hscope, hname⟩ := mem_flatMap.mp hname
    exact mem_flatten.mpr ⟨scope, scopesInLoop_subset hscope, mem_of_mem_filter hname⟩
  cases h with
  | nothing _ => exact .refl hs
  | wrapped _ hinner h => exact hb.lays_stmt hn (Node.mem_preorder_of_inner (by simp [hinner])) hs h
  | returns _ h => exact hb.lays_returned hn hs h
  | decls _ h =>
    refine .lowerAll (fun c hc _ _ _ _ hs h => (hb.lays_varDecl hn hs ?_ h).mono (nil_subset _)) hs h
    exact Node.mem_preorder_of_inner (mem_of_mem_filter hc)
  | branch _ h => exact hb.lays_lowered_branch hn hs h
  | @whileLoop _ _ _ _ t _ _ _ hinner hcond hbody =>
    have hcond := hb.prepared hn (Node.mem_preorder_of_inner (by simp [hinner])) hs depth hcond
    have hinside := hb.lays_loopBody (D := declared t.pending) hn (Node.mem_preorder_of_inner (by simp [hinner])) hcond.lays.discreet hbody
    exact hcond.append (hinside.wrap (by simp [tempDecls]) fun hscoped => ⟨⟨hcond.known, hscoped⟩, trivial⟩)
  | @doLoop _ cond _ _ _ _ _ hkind hinner hbody hcond =>
    -- The condition stands after the body, and nothing is put before it.
    have hinside := hb.lays_loopBody (D := []) hn (Node.mem_preorder_of_inner (by simp [hinner])) hs hbody
    have hcond := hb.lays_quiet hn (Node.mem_preorder_of_inner (by simp [hinner])) hinside.discreet hcond
      fun hcalm : Calm env n => hcalm.conditions n (Node.mem_preorder_self n) hkind cond (by simp [hinner])
    have hloop := hinside.append (hcond.lays.mono (nil_subset _))
    rw [append_nil] at hloop
    refine ⟨hloop.discreet, by simpa [tempDecls] using hloop.adds, fun hcalm hpending => ?_⟩
    obtain ⟨hu, hscoped⟩ := hloop.inScope hcalm hpending
    refine ⟨hu, ⟨?_, trivial⟩⟩
    rw [InScope, hcond.plain hcalm hu]
    exact ⟨nil_subset _, hscoped⟩
  | @forLoop _ _ _ body _ _ _ _ _ v _ _ _ _ _ hinner _ hbody ha hb' hc hround =>
    have hpart : ∀ {i c}, c ∈ n.inner[i]? → c ∈ n.preorder :=
      fun hc => Node.mem_preorder_of_inner (mem_of_getElem? hc)
    have hhead : Prepared env (Calm env n) depth _ _ v := hb.prepared_head hn hs
      (Node.mem_preorder_of_inner (by simp [hinner])) (fun _ => hpart) (fun _ => hpart) ha hb' hc
    have hmem : ∀ c ∈ body, c ∈ n.inner := by
      intro c hc
      rw [hbody] at hc
      have hlast := (Option.filter_eq_some_iff.mp hc).1
      split at hlast
      · exact mem_of_getElem? hlast
      · exact mem_of_getLast? hlast
    have hinside := lays_body (D := declared v.pending) hhead.lays.discreet (fun c hc h =>
      hb.lays_loopBody hn (Node.mem_preorder_of_inner (hmem c hc)) hhead.lays.discreet h) hround
    exact hhead.append (hinside.wrap (by simp [tempDecls]) fun hscoped => ⟨⟨hhead.known, hscoped⟩, trivial⟩)
  | block hc h =>
    refine (hb.lays_scope hn ?_ hs h).block
    rcases hc with ⟨-, rfl⟩ | ⟨-, hc⟩
    · exact Node.mem_preorder_self _
    · exact Node.mem_preorder_of_inner (mem_of_mem_head? (Option.filter_eq_some_iff.mp hc).1)
  | lock _ hinner hobject hlock => exact hb.lays_lock hn hs hinner hobject hlock
  | forIn _ hinner hvar htype hcollection hbody => exact hb.lays_items hn hs hinner hvar htype hcollection hbody
  | @switch _ body _ _ t _ inside _ hinner hcond hcases =>
    have hbody : body ∈ n.preorder := Node.mem_preorder_of_inner (by simp [hinner])
    have hcond := hb.prepared hn (Node.mem_preorder_of_inner (by simp [hinner])) hs depth hcond
    have hinside : Lays env (Calm env n) (declared t.pending) t.flushed inside s' := by
      cases hcases with
      | block _ h => exact hb.lays_stmts hn (Node.inner_subset_preorder hbody) hcond.lays.discreet h
      | single _ h => exact hb.lays_stmt hn hbody hcond.lays.discreet h
    exact hcond.append (hinside.wrap (by simp [tempDecls]) fun hscoped => ⟨⟨hcond.known, hscoped⟩, trivial⟩)
  | @case value _ _ _ _ _ hkind hinner hvalue h =>
    have hvalue := hb.lays_quiet hn (Node.mem_preorder_of_inner (by simp [hinner])) hs hvalue
      fun hcalm : Calm env n => hcalm.values n (Node.mem_preorder_self n) hkind value (by simp [hinner])
    have hbody := hb.lays_stmts (D := []) hn (fun m hm => Node.mem_preorder_of_inner (by simp [hinner, hm]))
      hvalue.lays.discreet h
    have hcode := hvalue.lays.append hbody
    refine ⟨hcode.discreet, by simpa [tempDecls] using hcode.adds, fun hcalm hpending => ?_⟩
    obtain ⟨hu, hscoped⟩ := hcode.inScope hcalm hpending
    refine ⟨hu, ⟨?_, by simpa [declares] using hscoped⟩⟩
    simp (disch := simp; decide) [hvalue.plain hcalm (hvalue.lays.inScope hcalm hpending).1]
  | default _ h =>
    have hlaid := hb.lays_stmts (D := []) hn (fun c hc => Node.mem_preorder_of_inner hc) hs h
    refine hlaid.wrap (by simp [tempDecls]) fun hscoped => ⟨?_, by simpa [declares] using hscoped⟩
    rw [InScope, tempsIn_fixed (isFixed_literal rfl rfl)]
    exact nil_subset _
  | null _ =>
    refine .plain hs rfl ⟨?_, trivial⟩
    rw [InScope, tempsIn_fixed (isFixed_literal rfl rfl)]
    exact nil_subset _
  | breaks _ | continues _ => exact hjump rfl rfl (by rw [InScope]; trivial)
  | assign _ _ h => exact hb.lays_assign hn hs h
  | expr _ _ htext => exact hb.lays_written hn hs htext

theorem lays_stmtStep (h : Yields (stmtStep (level k) depth n) env s code s') : Lays env (Calm env n) [] s code s' := by
  obtain ⟨text, rfl, hcopy⟩ | ⟨t, hcopy, hlowered⟩ := copied_or_lowered_of_yields h
  · obtain ⟨hnone, -, -⟩ | ⟨_, ps, texts, source, use, htext, hps, hspells, hsource, huse, hcopied⟩ :=
      copied_of_copyStmt hcopy
    · cases hnone
    · cases htext
      obtain ⟨⟨hs', ds, made, hadds, -⟩, hknown⟩ := hspells.grows (hb.composesParts hn) hs
      refine ⟨hs', ⟨ds, made, by simpa [tempDecls] using hadds⟩, fun hcalm hpending => ?_⟩
      -- What a copied statement queues is not put before it.
      obtain ⟨es, hes, hpending'⟩ := hspells.queued queuesParts_level
      rw [hcalm.copies n (Node.mem_preorder_self n) ps hps k] at hes
      cases hes
      rw [hpending, append_nil] at hpending'
      have hcopy := hcopied.tempsIn_subset hn hsource huse
      rw [hpending'] at hknown
      refine ⟨hpending', ⟨?_, trivial⟩⟩
      simpa (disch := simp; decide) using Subset.trans hcopy hknown.flatMap
  · obtain ⟨-, hnoted, -⟩ | ⟨_, _, _, _, _, hsome, -⟩ := copied_of_copyStmt hcopy
    · have ht := hnoted.steady.discreet hs
      have hlaid := hb.lays_lowered hn ht hlowered
      exact hlaid.between hnoted.steady.toSameTemps ⟨rfl, rfl, rfl⟩ hlaid.discreet
    · cases hsome

end LaysBelow

theorem laysBelow_level (env : Env) (k : Nat) : LaysBelow env k := by
  induction k with
  | zero => exact ⟨fun _ _ _ _ _ h => absurd h yields_throw, fun _ _ h => absurd h yields_throw, fun _ _ h => absurd h yields_throw⟩
  | succ k ih =>
    exact ⟨fun hn => composes_exprStep hn (ih.composesBelow hn), ih.lays_stmtStep,
      fun hn hs h => ih.lays_lowered_branch hn hs (loweredBranch_of_yields h)⟩

end ObjcLowering.Lowering
