import ObjcLowering.Proofs.Lowering.Braces

/-!
Declarations, returns and jumps as pieces of code, and pieces in a row.
-/

namespace ObjcLowering.Lowering

open Ast Code Behavior Standing
open List hiding after

variable {s s' : State}

def Watched (W : String → Prop) (d : Node) : Prop :=
  ∀ v, W v → declaredName d = .text v → v ≠ "self" ∧ DeclaresOwner d

def localNames (n : Node) : List Name := n.locals.map declaredName

theorem flushed_frame (s : State) : ownershipFrame.rel s s.flushed := ⟨⟨rfl, rfl, rfl⟩, rfl⟩

theorem track_scopes (h : name ∉ s.scopes.flatten) : (s.track name).scopes = growScopes [name] s.scopes := by
  unfold State.track
  cases hs : s.scopes with
  | nil => simp [growScopes, hs]
  | cons top rest =>
    have hname : name ∉ top := fun hname => h (by simp [hs, hname])
    simp [growScopes, addNew, hname]

theorem track_frame (s : State) (name : Name) : (s.track name).loops = s.loops ∧
    (s.track name).consumed = s.consumed ∧ (s.track name).locks = s.locks := by
  unfold State.track
  split <;> exact ⟨rfl, rfl, rfl⟩

theorem isOwner_of_declaresOwner (htype : declaredType d = .ok type)
    (hself : declaredName d ≠ "self") (h : DeclaresOwner d) : isOwner d type = true := by
  obtain ⟨type', htype', hstrong, hbridge⟩ := h
  rw [htype] at htype'
  cases htype'
  simp [isOwner, hstrong, hself, hbridge]

theorem pathsAll_declaration (root : String) (retained : Bool)
    (h : pathsAll (.declare depth u text :: if retained then [.retain depth root u] else []) t o x) :
    o = [u] ∧ x = .next ∧ t = .declare u :: if retained then [.retain u] else [] := by
  cases h with
  | left hdeclare hx =>
    cases hdeclare
    exact absurd rfl hx
  | both hdeclare hrest =>
    cases hdeclare
    cases retained with
    | false =>
      cases hrest
      exact ⟨rfl, rfl, rfl⟩
    | true =>
      cases pathsAll_singleton.mp hrest
      exact ⟨rfl, rfl, rfl⟩

theorem Meets.declaration (retained : Bool)
    (hfresh : s.isHeld u = false) (ha : a ⊆ [.text u]) (howner : v = u → .text u ∈ a) :
    Meets s a v (.declare u :: if retained then [.retain u] else []) [u] .next none := by
  by_cases hvu : v = u
  · subst hvu
    refine .opened retained hfresh (howner rfl) (by simp) ?_
    cases retained <;> simp [after, Event.subject, step, Exit.settle]
  · have hafter : ∀ st : Standing,
        after v st (.declare u :: if retained then [.retain u] else []) = some st := by
      intro st
      apply after_of_unmentioned
      cases retained <;> simp [Event.subject, Ne.symm hvu]
    have hadded : Json.text v ∉ a := fun h => by
      have hin : Json.text v ∈ [Json.text u] := ha h
      simp [hvu] at hin
    have hcount : [u].count v = 0 := by simp [Ne.symm hvu]
    cases hv : s.isHeld v with
    | true => exact .held hv (fun _ => hadded) hcount fun r => hafter (.held r)
    | false => exact .closed hv (fun _ => hadded) hcount (.inl (hafter .absent))

theorem declaring_scopes (h : declaredName d ∉ s.scopes.flatten) : (s.declaring d type).scopes =
      growScopes (if isOwner d type then [declaredName d] else []) s.scopes := by
  unfold State.declaring
  split
  · exact track_scopes h
  · exact (growScopes_nil _).symm

theorem declaring_frame : (s.declaring d type).loops = s.loops ∧
    (s.declaring d type).consumed = s.consumed ∧ (s.declaring d type).locks = s.locks := by
  unfold State.declaring
  split
  · exact track_frame s _
  · exact ⟨rfl, rfl, rfl⟩

theorem piece_of_declaration (retained : Bool)
    (hwatched : Watched W d) (htidy : Tidy s [declaredName d]) (htype : declaredType d = .ok type)
    (hs' : ownershipFrame.rel (s.declaring d type) s') :
    ∃ a, a.Sublist [declaredName d] ∧ Piece W nodes env a s
      (.declare depth (declaredName d).plain text ::
        if retained then [.retain depth env.root (declaredName d).plain] else []) s' := by
  have hfresh : declaredName d ∉ s.scopes.flatten := by
    intro hmem
    exact (nodup_append.mp htidy.distinct).2.2 _ hmem _ (by simp) rfl
  obtain ⟨u, hu⟩ : ∃ u, declaredName d = .text u := by
    have htext := htidy.texts (declaredName d) (by simp)
    cases hname : declaredName d with
    | text u => exact ⟨u, rfl⟩
    | _ => rw [hname] at htext; cases htext
  obtain ⟨⟨hscopes, hloops, hlocks⟩, hconsumed⟩ := hs'
  obtain ⟨hloops', hconsumed', hlocks'⟩ := @declaring_frame s d type
  refine ⟨if isOwner d type then [declaredName d] else [], ?_, ?_, ?_, ?_, ?_, ?_⟩
  · split
    · exact Sublist.refl _
    · exact nil_sublist _
  · exact hscopes.trans (declaring_scopes hfresh)
  · exact hloops.trans hloops'
  · exact hconsumed.trans hconsumed'
  · exact Nat.le_of_eq (hlocks.trans hlocks').symm
  · intro t o x hpath _
    obtain ⟨rfl, rfl, rfl⟩ := pathsAll_declaration _ _ hpath
    refine ⟨none, .onward (by simp), fun v hv => ?_⟩
    rw [hu] at hfresh ⊢
    rw [plain_text]
    refine Meets.declaration _ (by simpa [State.isHeld] using hfresh) ?_ ?_
    · split
      · exact Subset.refl _
      · exact nil_subset _
    · rintro rfl
      obtain ⟨hself, howner⟩ := hwatched _ hv hu
      rw [if_pos (isOwner_of_declaresOwner htype (by rw [hu]; simpa using hself) howner)]
      exact mem_singleton.mpr rfl

theorem mem_inner_of_initializer (h : (initializer? d).filter (fun e => !e.isNull) = some e) : e ∈ d.inner :=
  mem_of_find?_eq_some (Option.filter_eq_some_iff.mp h).1

theorem piece_of_varDecl (hshared : isShared d = false) (hwatched : Watched W d)
    (hexpr : ∀ e ∈ d.inner, ownershipFrame.Keeps (expr e)) (htidy : Tidy s [declaredName d])
    (h : Yields (lowerVarDecl expr depth d) env s code s') :
    ∃ a, a.Sublist [declaredName d] ∧ Piece W nodes env a s code s' := by
  cases declared_of_yields h with
  | shared htrue => rw [hshared] at htrue; cases htrue
  | bare _ htype _ =>
    exact piece_of_declaration false hwatched htidy htype (ownershipFrame.refl _)
  | value _ htype hinit htext _ =>
    have hframe := hexpr _ (mem_inner_of_initializer hinit) _ _ _ _ htext
    obtain ⟨a, ha, hpiece⟩ := piece_of_declaration _ hwatched htidy htype hframe
    refine ⟨a, ha, ?_⟩
    rw [append_assoc]
    exact hpiece.temps_append.congr (ownershipFrame.refl _) (flushed_frame _)

theorem Piece.inside (hs : s.Inside) (h : Piece W nodes env a s c s') : s'.Inside := by
  obtain ⟨top, rest, hscopes, hloops⟩ := hs
  refine ⟨top ++ a, rest, ?_, ?_⟩
  · rw [h.scopes, hscopes, growScopes]
  · rw [h.loops]
    exact hloops

theorem piece_of_lowerAll
    (step : ∀ n ∈ ns, ∀ s code s', s.Inside → Tidy s (names n) → Yields (f n) env s code s' →
      ∃ a, a.Sublist (names n) ∧ Piece W nodes env a s code s')
    (hs : s.Inside) (htidy : Tidy s (ns.flatMap names))
    (h : Yields (lowerAll f ns) env s code s') :
    ∃ a, a.Sublist (ns.flatMap names) ∧ Piece W nodes env a s code s' := by
  induction ns generalizing s code with
  | nil =>
    obtain ⟨rfl, rfl⟩ := yields_lowerAll_nil.mp h
    refine ⟨[], nil_sublist _, Piece.skip (ownershipFrame.refl _) fun t o x hpath => hpath⟩
  | cons n ns ih =>
    obtain ⟨c, t, d, hn, hns, rfl⟩ := yields_lowerAll_cons.mp h
    rw [flatMap_cons] at htidy ⊢
    obtain ⟨a, ha, hc⟩ := step n (by simp) s c t hs (htidy.sub (sublist_append_left _ _)) hn
    obtain ⟨b, hb, hd⟩ := ih (fun m hm => step m (by simp [hm])) (hc.inside hs) (htidy.grow ha hc) hns
    exact ⟨a ++ b, ha.append hb, hc.append hs hd⟩

theorem owned_of_kept (h : s.consumed = []) (scope : List Name) : s.owned scope = scope := by
  simp [State.owned, h]

theorem not_next_of_returns : ¬ pathsAll (c ++ [.returns depth value]) t o .next := by
  intro h
  cases pathsAll_append.mp h with
  | both _ hreturn =>
    cases pathsAll_singleton.mp hreturn
  | left _ hx => exact hx rfl

theorem piece_of_releases {x : Exit} {out : Option String}
    {root : String} (htidy : Tidy s []) (hnames : names.Nodup)
    (hheld : ∀ name ∈ names, name ∈ s.scopes.flatten) (hx : x ≠ .next) (hout : Ends env nodes x out)
    (hsettle : ∀ v r, s.isHeld v = true → x.settle out (s.isInLoop v) v r =
      if .text v ∈ names then .released else .held r)
    (hc : ∀ t o x', paths c t o x' → Jump x t o x') :
    Piece W nodes env [] s (releases depth root names ++ (temps depth u ++ [c])) s := by
  have htexts : ∀ name ∈ names, name.isText = true :=
    fun name hname => htidy.texts name (by simpa using hheld name hname)
  refine ⟨(growScopes_nil _).symm, rfl, rfl, Nat.le_refl _, fun t o x' hpath _ => ?_⟩
  cases pathsAll_append.mp hpath with
  | left hreleases hnext => exact absurd (pathsAll_releases hreleases).2.2 hnext
  | both hreleases hjump =>
    obtain ⟨rfl, rfl, -⟩ := pathsAll_releases hreleases
    cases hc _ _ _ (pathsAll_singleton.mp (pathsAll_temps_append.mp hjump))
    rw [append_nil]
    refine ⟨out, hout, fun v _ => ?_⟩
    cases hv : s.isHeld v with
    | true =>
      refine .held hv (fun h => absurd h hx) (by simp) fun r => ?_
      rw [hsettle v r hv]
      split
      · next hmem => exact after_releases_of_mem htexts hnames hmem
      · next hmem => exact after_releases_of_notMem htexts hmem
    | false =>
      have hmem : .text v ∉ names := fun hmem => by
        have hin : s.isHeld v = true := by
          rw [State.isHeld, contains_iff_mem]
          exact hheld _ hmem
        rw [hv] at hin
        cases hin
      exact .closed hv (fun h => absurd h hx) (by simp) (.inl (after_releases_of_notMem htexts hmem))

theorem nodup_ownedAtReturn (htidy : Tidy s []) : (s.ownedAtReturn returned).Nodup := by
  have hperm : (s.scopes.reverse.flatMap s.owned).Perm s.scopes.flatten := by
    have hmap : s.scopes.map s.owned = s.scopes :=
      (map_congr_left fun scope _ => owned_of_kept htidy.kept scope).trans (map_id _)
    rw [flatMap, map_reverse, hmap]
    exact (reverse_perm _).flatten
  have hnodup := htidy.distinct
  rw [append_nil] at hnodup
  exact (hperm.nodup_iff.mpr hnodup).filter _

def handedOut : Option Name → Option String
  | some (.text u) => some u
  | _ => none

theorem handedOut_eq_some : handedOut var = some v ↔ var = some (.text v) := by
  unfold handedOut
  split
  · simp
  · next h =>
    constructor
    · intro h
      cases h
    · rintro rfl
      exact absurd rfl (h v)

theorem settle_of_return {v : String} {r inLoop : Bool} (htidy : Tidy s []) (hv : s.isHeld v = true) :
    (Exit.returns value).settle (handedOut var) inLoop v r =
      if .text v ∈ s.ownedAtReturn var then .released else .held r := by
  rw [State.isHeld, contains_iff_mem] at hv
  rw [Exit.settle]
  by_cases hvar : var = some (.text v)
  · rw [if_pos (handedOut_eq_some.mpr hvar), if_neg]
    exact fun h => (mem_ownedAtReturn.mp h).2.2 hvar
  · rw [if_neg (mt handedOut_eq_some.mp hvar), if_pos]
    exact mem_ownedAtReturn.mpr ⟨hv, by simp [htidy.kept], hvar⟩

theorem mem_preorder_of_headD {e m : Node} (h : m ∈ (e.inner.headD e).preorder) :
    m ∈ e.preorder := by
  cases he : e.inner with
  | nil =>
    rw [he, headD_nil] at h
    exact h
  | cons c rest =>
    rw [he, headD_cons] at h
    exact Node.preorder_subset_of_inner (by simp [he]) h

theorem mem_preorder_of_returnValue {e v : Node} (h : returnValue e = .ok v) : v ∈ e.preorder := by
  obtain ⟨inner, hinner, h⟩ := bind_eq_ok.mp h
  obtain ⟨-, rfl⟩ := Node.check_eq_ok.mp hinner
  obtain ⟨type, -, h⟩ := bind_eq_ok.mp h
  have houter : ∀ m, m ∈ (if e.kind = "ExprWithCleanups" then e.inner.headD e else e).preorder →
      m ∈ e.preorder := by
    intro m hm
    split at hm
    · exact mem_preorder_of_headD hm
    · exact hm
  generalize (if e.kind = "ExprWithCleanups" then e.inner.headD e else e) = f at h houter
  rw [pure_eq_ok] at h
  subst h
  apply houter
  split
  · exact mem_preorder_of_headD (Node.mem_preorder_self _)
  · exact Node.mem_preorder_self _

theorem ends_of_return {var : Option Name} {text : String}
    (hn : n ∈ nodes) (hkind : n.kind = "ReturnStmt") (hinner : n.inner = e :: rest)
    (hcasts : ∀ name, Denotes transparentKinds e name → Denotes castKinds e name)
    (hvar : returnedVar? e = .ok var) (hv : returnValue e = .ok v)
    (htext : Yields ((level k).expr v) env u text u') :
    Ends env nodes (.returns (some text)) (handedOut var) := by
  refine .value hn hkind hinner ⟨k, v, u, u', hv, htext⟩ fun v => ?_
  rw [handedOut_eq_some]
  constructor
  · rintro rfl
    obtain ⟨m, d, hwraps, h⟩ := returnedVar_eq_some.mp hvar
    exact ⟨m, d, hwraps.mono (by decide), h⟩
  · intro h
    have hsome := returnedVar_eq_some.mpr (hcasts _ h)
    rw [hvar] at hsome
    exact Except.ok.inj hsome

theorem piece_of_lowerReturn (hn : n ∈ nodes) (hkind : n.kind = "ReturnStmt")
    (hcasts : ∀ e ∈ n.inner.head?, ∀ name,
      Denotes transparentKinds e name → Denotes castKinds e name)
    (hexpr : ∀ m ∈ n.preorder, ownershipFrame.Keeps ((level k).expr m)) (htidy : Tidy s [])
    (h : Yields (lowerReturn (level k).expr depth n) env s code s') :
    Piece W nodes env [] s code s' := by
  have hheld : ∀ {var name}, name ∈ s.ownedAtReturn var → name ∈ s.scopes.flatten :=
    fun h => (mem_ownedAtReturn.mp h).1
  cases returned_of_yields h with
  | bare hinner =>
    exact piece_of_releases (u := {}) htidy (nodup_ownedAtReturn htidy) (fun _ => hheld) (by simp)
      (.bare hn hkind hinner) (fun v r hv => @settle_of_return s none none v r _ htidy hv)
      (fun t o x h => h)
  | value hinner hvar hv htext =>
    rename_i e v rest var text t
    have hmem : v ∈ n.preorder := Node.preorder_subset_of_inner (by simp [hinner])
      (mem_preorder_of_returnValue hv)
    have hends : Ends env nodes (.returns (some text)) (handedOut var) :=
      ends_of_return hn hkind hinner (hcasts e (by simp [hinner])) hvar hv htext
    have hpiece : Piece W nodes env [] s (releases depth env.root (s.ownedAtReturn var) ++
        (temps depth t ++ [.returns depth (some text)])) s :=
      piece_of_releases htidy (nodup_ownedAtReturn htidy) (fun _ => hheld) (by simp) hends
        (fun v r hv => settle_of_return htidy hv) (fun t o x h => h)
    rw [append_assoc]
    exact hpiece.congr (ownershipFrame.refl _)
      (ownershipFrame.trans (hexpr v hmem _ _ _ _ htext) (flushed_frame t))

theorem scopesInLoop_flatten_sublist : s.scopesInLoop.flatten.Sublist s.scopes.flatten := by
  unfold State.scopesInLoop
  split
  · next outside _ _ =>
    conv => rhs; rw [← take_append_drop (s.scopes.length - outside) s.scopes]
    rw [flatten_append]
    exact sublist_append_left _ _
  · exact nil_sublist _

theorem piece_of_jump (hx : x = .breaks ∨ x = .continues)
    (hc : ∀ t o x', paths c t o x' → Jump x t o x') (htidy : Tidy s [])
    (h : Yields (do return (← releaseLoop depth) ++ [c]) env s code s') :
    Piece W nodes env [] s code s' := by
  simp only [yields_bind, yields_releaseLoop, yields_pure] at h
  obtain ⟨_, _, ⟨rfl, rfl⟩, rfl, rfl⟩ := h
  have hnames : s'.scopesInLoop.flatMap s'.owned = s'.scopesInLoop.flatten := by
    rw [flatMap, map_congr_left fun scope _ => owned_of_kept htidy.kept scope]
    exact congrArg flatten (map_id _)
  have hsub : s'.scopesInLoop.flatten.Sublist s'.scopes.flatten := scopesInLoop_flatten_sublist
  have hnodup := htidy.distinct
  rw [append_nil] at hnodup
  rw [hnames]
  refine piece_of_releases (u := {}) htidy (hnodup.sublist hsub) (fun _ h => hsub.subset h) ?_ 
    (.onward ?_) ?_ hc
  · rintro rfl
    simp at hx
  · rintro value rfl
    simp at hx
  · intro v r _
    rw [State.isInLoop, contains_eq_mem]
    obtain rfl | rfl := hx <;> simp [Exit.settle]

end ObjcLowering.Lowering
