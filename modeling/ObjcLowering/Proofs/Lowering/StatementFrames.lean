import ObjcLowering.Proofs.Lowering.StatementCases

/-!
What statements do to the stacks: they leave the loops alone and add variables to the innermost scope at
most.
-/

namespace ObjcLowering.Lowering

open Ast Lowering.Frame List

def trackAll (names : List Name) : List (List Name) → List (List Name)
  | [] => []
  | top :: rest => addAllNew top names :: rest

@[simp] theorem trackAll_nil (scopes : List (List Name)) : trackAll [] scopes = scopes := by
  cases scopes <;> rfl

theorem trackAll_append (a b : List Name) (scopes : List (List Name)) :
    trackAll (a ++ b) scopes = trackAll b (trackAll a scopes) := by
  cases scopes <;> simp [trackAll, addAllNew]

@[simp] theorem length_trackAll (names : List Name) (scopes : List (List Name)) :
    (trackAll names scopes).length = scopes.length := by
  cases scopes <;> rfl

@[simp] theorem tail_trackAll (names : List Name) (scopes : List (List Name)) :
    (trackAll names scopes).tail = scopes.tail := by
  cases scopes <;> rfl

@[simp] theorem scopes_track (s : State) (name : Name) :
    (s.track name).scopes = trackAll [name] s.scopes := by
  unfold State.track
  cases hs : s.scopes with
  | nil => simp [trackAll, hs]
  | cons top rest => rfl

@[simp] theorem loops_track (s : State) (name : Name) : (s.track name).loops = s.loops := by
  unfold State.track
  split <;> rfl

def GrowsBy (names : List Name) (s s' : State) : Prop :=
  s'.loops = s.loops ∧ s'.scopes = trackAll names s.scopes

theorem GrowsBy.trans (h : GrowsBy a s t) (h' : GrowsBy b t s') : GrowsBy (a ++ b) s s' :=
  ⟨h'.1.trans h.1, by rw [h'.2, h.2, trackAll_append]⟩

theorem GrowsBy.of_eq (hscopes : s'.scopes = s.scopes) (hloops : s'.loops = s.loops) :
    GrowsBy [] s s' :=
  ⟨hloops, by rw [hscopes, trackAll_nil]⟩

theorem growsBy_of_stacks (h : stacksFrame.rel s s') : GrowsBy [] s s' := .of_eq h.1 h.2.1

def growthFrame : Frame where
  rel s s' := ∃ names, GrowsBy names s s'
  refl _ := ⟨[], .of_eq rfl rfl⟩
  trans := fun ⟨a, ha⟩ ⟨b, hb⟩ => ⟨a ++ b, ha.trans hb⟩
  warn _ _ := ⟨[], .of_eq rfl rfl⟩
  fail _ _ := ⟨[], .of_eq rfl rfl⟩
  temp _ := ⟨[], .of_eq rfl rfl⟩
  pending _ _ := ⟨[], .of_eq rfl rfl⟩
  literal _ _ _ _ := ⟨[], .of_eq rfl rfl⟩
  block _ _ := ⟨[], .of_eq rfl rfl⟩

theorem growth_of_stacks (h : stacksFrame.Keeps a) : growthFrame.Keeps a :=
  h.mono fun _ _ hrel => ⟨[], growsBy_of_stacks hrel⟩

def scopesFrame : Frame where
  rel := GrowsBy []
  refl _ := .of_eq rfl rfl
  trans h h' := h.trans h'
  warn _ _ := .of_eq rfl rfl
  fail _ _ := .of_eq rfl rfl
  temp _ := .of_eq rfl rfl
  pending _ _ := .of_eq rfl rfl
  literal _ _ _ _ := .of_eq rfl rfl
  block _ _ := .of_eq rfl rfl

theorem growth_of_scopes (h : scopesFrame.Keeps a) : growthFrame.Keeps a :=
  h.mono fun _ _ hrel => ⟨[], hrel⟩

theorem keeps_lowerAll {F : Frame} (h : ∀ n ∈ ns, F.Keeps (f n)) : F.Keeps (lowerAll f ns) :=
  keeps_bind (keeps_mapM h) fun _ => keeps_pure

structure Disciplined (below : Below) : Prop where
  expr : ∀ n, stacksFrame.Keeps (below.expr n)
  stmt : ∀ depth n, growthFrame.Keeps (below.stmt depth n)
  branch : ∀ depth n, growthFrame.Keeps (below.branch depth n)

theorem growsBy_tracked (s : State) (params : List Param) :
    GrowsBy (params.map Param.name) s (params.foldl (fun s p => s.track p.name) s) := by
  induction params generalizing s with
  | nil => exact .of_eq rfl rfl
  | cons p params ih =>
    have hp : GrowsBy [p.name] s (s.track p.name) := ⟨loops_track s p.name, scopes_track s p.name⟩
    exact hp.trans (ih _)

theorem GrowsBy.left (h : GrowsBy names u t)
    (hscopes : u.scopes = scope :: s.scopes) (hloops : u.loops = s.loops) : GrowsBy [] s t.left := by
  refine .of_eq ?_ (h.1.trans hloops)
  rw [State.left, h.2, tail_trackAll, hscopes, tail_cons]

theorem scopes_lowerScope (hb : Disciplined below) {params : List Param} :
    scopesFrame.Keeps (lowerScope below depth params n) := by
  intro env s code s' h
  obtain ⟨body, t, hbody, rfl, -⟩ := entered_of_yields h
  obtain ⟨names, hgrows⟩ := keeps_lowerAll (fun m _ => hb.stmt (depth + 1) m) _ _ _ _ hbody
  exact ((growsBy_tracked { s with scopes := [] :: s.scopes } params).trans hgrows).left rfl rfl

theorem keeps_lowerBraced (hb : Disciplined below) :
    growthFrame.Keeps (lowerBraced below depth n) := by
  unfold lowerBraced
  split
  · exact growth_of_scopes (scopes_lowerScope hb)
  · exact hb.stmt (depth + 1) n

theorem keeps_lowerLoopBody (hb : Disciplined below) :
    growthFrame.Keeps (lowerLoopBody below depth n) := by
  intro env s code s' h
  obtain ⟨t, hbody, rfl⟩ := yields_lowerLoopBody.mp h
  obtain ⟨names, hloops, hscopes⟩ := keeps_lowerBraced hb _ _ _ _ hbody
  exact ⟨names, congrArg tail hloops, hscopes⟩

theorem keeps_headPart {F : Frame} (h : ∀ m ∈ part, F.Keeps (expr m)) : F.Keeps (headPart expr part) := by
  unfold headPart
  split
  · split
    · exact keeps_pure
    · exact h _ rfl
  · exact keeps_pure

theorem keeps_initPart {F : Frame} (h : ∀ m ∈ n.preorder, F.Keeps (expr m)) :
    F.Keeps (initPart expr n) := by
  unfold initPart
  split
  · split
    · next var hvar =>
      have hin : var ∈ n.inner := mem_of_mem_head? (Option.filter_eq_some_iff.mp hvar).1
      refine keeps_bind_liftM fun raw _ => keeps_bind_liftM fun type _ => keeps_bind_children ?_
      split
      · next e he =>
        refine keeps_bind (h e ?_) fun _ => keeps_pure
        exact Node.preorder_subset_of_inner hin
          (Node.mem_preorder_of_inner (mem_of_find?_eq_some he))
      · exact keeps_pure
    · exact keeps_pure
  · exact keeps_headPart fun m hm => h m (by simp at hm; simp [hm, Node.mem_preorder_self])

def ownerOf (d : Node) : List Name :=
  match declaredType d with
  | .ok type => if !isShared d && isOwner d type then [declaredName d] else []
  | .error _ => []

def ownersOf (n : Node) : List Name :=
  (n.inner.filter fun d => d.kind == "VarDecl").flatMap ownerOf

theorem growsBy_declaring (hshared : isShared n = false)
    (htype : declaredType n = .ok type) : GrowsBy (ownerOf n) s (s.declaring n type) := by
  simp only [ownerOf, htype, hshared, State.declaring, Bool.not_false, Bool.true_and]
  split
  · exact ⟨loops_track s _, scopes_track s _⟩
  · exact .of_eq rfl rfl

theorem growsBy_lowerVarDecl (hexpr : ∀ m, stacksFrame.Keeps (expr m))
    (h : Yields (lowerVarDecl expr depth n) env s code s') : GrowsBy (ownerOf n) s s' := by
  cases declared_of_yields h with
  | shared hshared =>
    have hnone : ownerOf n = [] := by
      unfold ownerOf
      split <;> simp [hshared]
    rw [hnone]
    exact .of_eq rfl rfl
  | bare hshared htype _ => exact growsBy_declaring hshared htype
  | @value type e text t _ hshared htype _ htext _ =>
    have hgrows := growsBy_declaring (s := s) hshared htype
    have hkept : GrowsBy [] t t.flushed := .of_eq rfl rfl
    have hall := (hgrows.trans (growsBy_of_stacks (hexpr e env _ text t htext))).trans hkept
    rwa [append_nil, append_nil] at hall

theorem growsBy_declarations (hexpr : ∀ m, stacksFrame.Keeps (expr m))
    (h : Yields (lowerAll (lowerVarDecl expr depth) ds) env s code s') :
    GrowsBy (ds.flatMap ownerOf) s s' := by
  induction ds generalizing s code with
  | nil =>
    obtain ⟨-, rfl⟩ := yields_lowerAll_nil.mp h
    exact .of_eq rfl rfl
  | cons d ds ih =>
    obtain ⟨_, t, _, hd, hds, -⟩ := yields_lowerAll_cons.mp h
    exact (growsBy_lowerVarDecl hexpr hd).trans (ih hds)

theorem growsBy_declStmt (hkind : n.kind = "DeclStmt")
    (h : Yields (lowerStmtKind (level k) depth n) env s code s') : GrowsBy (ownersOf n) s s' := by
  simp only [lowerStmtKind, hkind] at h
  replace h := yields_bind_children h
  exact growsBy_declarations (level_expr_keeps_stacks k) h

theorem stacks_exprStmt (h : Yields (exprStep (level k) n) env s text t) :
    stacksFrame.rel s t.flushed := level_expr_keeps_stacks (k + 1) n env s text t h

theorem stacks_stored (hexpr : stacksFrame.Keeps (expr rhs))
    (h : Stored expr env depth ivar lhs rhs s code s') : stacksFrame.rel s s' := by
  cases h with
  | param _ _ htext => exact (hexpr _ _ _ _ htext :)
  | @«local» var text t tracked _ _ htext _ =>
    refine stacksFrame.trans (hexpr _ _ _ _ htext) ?_
    split
    · exact ⟨State.consume_scopes .., State.consume_loops .., State.consume_locks ..⟩
    · exact stacksFrame.refl t
  | other _ _ htext => exact (hexpr _ _ _ _ htext :)

theorem LoweredBody.grows
    (hlower : ∀ c, growthFrame.Keeps (lower c)) (h : LoweredBody lower env s part form code s') :
    growthFrame.rel s s' := by
  cases h with
  | absent => exact growthFrame.refl s
  | braced h => exact hlower _ _ _ _ _ h

theorem LoweredBranch.grows (hb : Disciplined below) (h : LoweredBranch below env depth n s code s') :
    growthFrame.rel s s' := by
  cases h with
  | nothing => exact growthFrame.refl s
  | parts _ _ hcond hyes hno =>
    have hcond := growth_of_stacks (hb.expr _) _ _ _ _ hcond
    have hyes := hyes.grows fun _ => keeps_lowerBraced hb
    refine growthFrame.trans hcond (growthFrame.trans hyes ?_ :)
    cases hno with
    | absent => exact growthFrame.refl _
    | braced _ h => exact keeps_lowerBraced hb _ _ _ _ h
    | chained _ h => exact hb.branch _ _ _ _ _ _ h

theorem LoweredLock.grows {names : List Name}
    (hb : Disciplined below) (ht : stacksFrame.rel { s with locks := locks } t)
    (h : LoweredLock below env depth body { t.flushed with scopes := names :: t.scopes } code u) :
    GrowsBy [] s u.left := by
  cases h with
  | block _ h =>
    obtain ⟨_, hgrows⟩ := keeps_lowerAll (fun m _ => hb.stmt depth m) _ _ _ _ h
    exact hgrows.left (congrArg (cons _) ht.1) ht.2.1
  | empty => exact .of_eq ht.1 ht.2.1

theorem growsBy_items {temps : Nat} (hb : Disciplined below) (ht : stacksFrame.rel s t)
    (h : Yields (lowerLoopBody below depth n) env
      { t.flushed with temps := temps, scopes := names :: t.scopes } code u) : GrowsBy [] s u.left := by
  obtain ⟨_, hgrows⟩ := keeps_lowerLoopBody hb _ _ _ _ h
  exact hgrows.left (congrArg (cons _) ht.1) ht.2.1

theorem Lowered.grows {k : Nat} (hb : Disciplined (level k)) (h : Lowered (level k) env depth n s code s') :
    growthFrame.rel s s' := by
  have hexpr : ∀ m, growthFrame.Keeps ((level k).expr m) := fun m => growth_of_stacks (hb.expr m)
  have hstmts : ∀ depth ns, growthFrame.Keeps (lowerAll ((level k).stmt depth) ns) := fun depth _ =>
    keeps_lowerAll fun m _ => hb.stmt depth m
  cases h with
  | nothing | null | breaks | continues => exact growthFrame.refl s
  | wrapped _ _ h => exact hb.stmt depth _ _ _ _ _ h
  | returns _ h =>
    cases h with
    | bare _ => exact growthFrame.refl s
    | value _ _ _ htext => exact (hexpr _ _ _ _ _ htext :)
  | decls _ h => exact ⟨_, growsBy_declarations hb.expr h⟩
  | branch _ h => exact h.grows hb
  | whileLoop _ _ hcond hbody =>
    exact growthFrame.trans (hexpr _ _ _ _ _ hcond) (keeps_lowerLoopBody hb _ _ _ _ hbody :)
  | doLoop _ _ hbody hcond =>
    exact growthFrame.trans (keeps_lowerLoopBody hb _ _ _ _ hbody) (hexpr _ _ _ _ _ hcond)
  | forLoop _ _ _ _ ha hb' hc hround =>
    have ha := keeps_initPart (fun m _ => hexpr m) _ _ _ _ ha
    have hb' := keeps_headPart (fun m _ => hexpr m) _ _ _ _ hb'
    have hhead := growthFrame.trans (growthFrame.trans ha hb') (keeps_headPart (fun m _ => hexpr m) _ _ _ _ hc)
    exact growthFrame.trans hhead (hround.grows fun _ => keeps_lowerLoopBody hb :)
  | block _ h => exact growth_of_scopes (scopes_lowerScope hb) _ _ _ _ h
  | lock _ _ hobject hlock => exact ⟨[], hlock.grows hb (hb.expr _ _ _ _ _ hobject)⟩
  | forIn _ _ _ _ hcollection hbody =>
    exact ⟨[], growsBy_items hb (hb.expr _ _ _ _ _ hcollection) hbody⟩
  | switch _ _ hcond hcases =>
    have hcond := hexpr _ _ _ _ _ hcond
    cases hcases with
    | block _ h => exact growthFrame.trans hcond (hstmts _ _ _ _ _ _ h :)
    | single _ h => exact growthFrame.trans hcond (hb.stmt _ _ _ _ _ _ h :)
  | case _ _ hvalue h => exact growthFrame.trans (hexpr _ _ _ _ _ hvalue) (hstmts _ _ _ _ _ _ h)
  | default _ h => exact hstmts _ _ _ _ _ _ h
  | assign _ _ h =>
    cases h with
    | ivar _ _ h => exact ⟨[], growsBy_of_stacks (stacks_stored (hb.expr _) h)⟩
    | «variable» _ _ _ htext _ => exact (hexpr _ _ _ _ _ htext :)
    | expr _ htext => exact ⟨[], growsBy_of_stacks (stacks_exprStmt htext)⟩
  | expr _ _ htext => exact ⟨[], growsBy_of_stacks (stacks_exprStmt htext)⟩

theorem stacks_copyStmt : stacksFrame.Keeps (copyStmt? (level k).expr n) :=
  keeps_copyStmt fun m _ => level_expr_keeps_stacks k m

theorem disciplined_level (k : Nat) : Disciplined (level k) := by
  induction k with
  | zero => exact ⟨fun _ => keeps_throw, fun _ _ => keeps_throw, fun _ _ => keeps_throw⟩
  | succ k ih =>
    refine ⟨level_expr_keeps_stacks (k + 1), fun depth n env s code s' h => ?_, fun depth n env s code s' h => ?_⟩
    · obtain ⟨text, rfl, hcopy⟩ | ⟨t, hcopy, hlowered⟩ := copied_or_lowered_of_yields h
      · exact growth_of_stacks stacks_copyStmt _ _ _ _ hcopy
      · exact growthFrame.trans (growth_of_stacks stacks_copyStmt _ _ _ _ hcopy) (hlowered.grows ih)
    · exact (loweredBranch_of_yields h).grows ih

end ObjcLowering.Lowering
