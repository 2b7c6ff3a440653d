import ObjcLowering.Proofs.Lowering.Hoisting
import ObjcLowering.Proofs.Lowering.TempStatements

/-! Generated variables have names of their own and are declared before they are mentioned. -/

namespace ObjcLowering.Lowering

open Ast Code

theorem discernible_of_texts (hsource : env.source = none) (henv : ∀ text ∈ env.texts, tempsIn text = [])
    (hnodes : ∀ m ∈ n.preorder, m.kind ≠ "UnaryOperator" ∧ (∀ text ∈ m.texts, tempsIn text = []) ∧
      (m.kind = "ObjCMessageExpr" → ∀ f ∈ (callee env m).toOption, tempsIn f = [])) : Discernible env n where
  env_texts := henv
  texts m hm := (hnodes m hm).2.1
  callees m hm hkind f hf := (hnodes m hm).2.2 hkind f (by rw [hf]; rfl)
  operators m hm hkind := absurd hkind (hnodes m hm).1
  copies source hs := by
    rw [hsource] at hs
    cases hs

theorem calm_of_kinds (hsource : env.source = none)
    (hkinds : ∀ m ∈ n.preorder, m.kind ∉ ["DoStmt", "CaseStmt", "ObjCIvarRefExpr"]) : Calm env n where
  conditions m hm hkind := absurd (by simp [hkind]) (hkinds m hm)
  values m hm hkind := absurd (by simp [hkind]) (hkinds m hm)
  copies m hm ps hps := by
    unfold copyStmtParts? copyParts? at hps
    rw [hsource] at hps
    split at hps <;> cases hps
  stores m hm lhs rhs ivar raw hinner hivar := by
    have hlhs : lhs.belowCasts ∈ n.preorder := Node.preorder_subset_of_preorder n hm
      (Node.preorder_subset_of_inner (by simp [hinner]) (Node.unwrap_mem_preorder _ lhs))
    have hkind : lhs.belowCasts.kind ≠ "ObjCIvarRefExpr" := fun hkind =>
      absurd (by simp [hkind]) (hkinds _ hlhs)
    rw [strongIvar?, if_pos (by simpa using hkind)] at hivar
    cases hivar

/-- From one state to another, expressions and statements have been lowered one after the other, and
some code has been written for the statements. -/
inductive Session (env : Env) (s : State) : List Code → State → Prop
  | start : Session env s [] s
  | expr : Session env s code t →
      Discernible env n → Yields (lowerExpr n) env t text u → Session env s code u
  | stmt : Session env s code t →
      Discernible env n → Yields (lowerStmt depth n) env t more u → Session env s (code ++ more) u

theorem adds_expr (hn : Discernible env n) (ht : Discreet t) (h : Yields (lowerExpr n) env t text u) :
    Discreet u ∧ ∃ ds made, Adds env [] t u ds made ∧ InOrder (declared t.pending) ds := by
  obtain ⟨hgrows, -⟩ := (laysBelow_level env n.depth).expr hn t text u ht h
  exact ⟨hgrows.discreet, hgrows.adds⟩

theorem Session.adds (h : Session env s code t) (hs : Discreet s) :
    Discreet t ∧ ∃ ds made, Adds env (tempDeclsAll code) s t ds made := by
  induction h with
  | start => exact ⟨hs, [], [], by simpa using (Steady.refl s).toSameTemps.adds⟩
  | expr _ hn hrun ih =>
    obtain ⟨ht, ds, made, hadds⟩ := ih
    obtain ⟨hu, es, more, hmore, -⟩ := adds_expr hn ht hrun
    exact ⟨hu, ds ++ es, made ++ more, by simpa using hadds.trans hmore⟩
  | stmt _ hn hrun ih =>
    obtain ⟨ht, ds, made, hadds⟩ := ih
    have hlaid := (laysBelow_level env _).stmt hn ht hrun
    obtain ⟨es, more, hmore⟩ := hlaid.adds
    rw [tempDeclsAll_append]
    exact ⟨hlaid.discreet, ds ++ es, made ++ more, hadds.trans hmore⟩

/-- After any sequence of calls, the variables that have been generated, in the code, in the queue and
in the functions for blocks, have names of their own, with numbers that the counter has passed in the
meantime; and a further expression keeps the queue and adds declarations to it, each of which mentions
only variables that are declared before it. -/
theorem generated_once_in_order (hs : Discreet s) (h : Session env s code t) :
    s.temps ≤ t.temps ∧
    (∃ (ds : List TempDecl) (made : List (String × List TempDecl)),
      tempDeclsAll code ++ t.pending = s.pending ++ ds ∧
      t.blocks = s.blocks ++ made.map (·.1) ∧ (∀ f ∈ made, BlockFunction env f.1 f.2) ∧
      (declared (ds ++ made.flatMap (·.2))).Nodup ∧
      ∀ w ∈ declared (ds ++ made.flatMap (·.2)), ∃ kind k, w = TempKind.nameOf kind k ∧
        s.temps ≤ k ∧ k < t.temps) ∧
    ∀ n text u, Discernible env n → Yields (lowerExpr n) env t text u → t.temps ≤ u.temps ∧
      ∃ ds, u.pending = t.pending ++ ds ∧ InOrder (declared t.pending) ds := by
  obtain ⟨ht, ds, made, hadds⟩ := h.adds hs
  have hnumbered := hadds.numbered
  refine ⟨hnumbered.le, ⟨ds, made, hadds.pending, hadds.blocks, hadds.functions, hnumbered.nodup,
    hnumbered.exists_number⟩, fun n text u hn hrun => ?_⟩
  obtain ⟨-, es, more, hmore, hordered⟩ := adds_expr hn ht hrun
  exact ⟨hmore.numbered.le, es, hmore.pending, hordered⟩

def sendInAndBesideBlock : Node :=
  .bare "CallExpr" [.varRef "use" "void (int)",
    .bare "BlockExpr" [.bare "BlockDecl" [.bare "CompoundStmt" [passedSend]]],
    message "instance" "" "run" [callOf "f"]]

theorem discernible_sendInAndBesideBlock : Discernible inTwoRunners sendInAndBesideBlock :=
  discernible_of_texts rfl (by decide +kernel) (by decide +kernel)

theorem discreet_initial : Discreet {} := ⟨fun _ _ h => (by cases h), fun _ h => (by cases h)⟩

theorem receivers_generated_once :
    ∃ code t text u, Session inTwoRunners {} code t ∧
      Yields (lowerExpr sendInAndBesideBlock) inTwoRunners t text u ∧
      renderAll code = "struct OZObject *_oz_recv0 = (struct OZObject *)f();\n"
        ++ "use(OZ_PROTOCOL_SEND_run(_oz_recv0));\n" ∧
      t.blocks = ["static void _oz_block_L0_C0(void)\n\x7b\n"
        ++ "\tstruct OZObject *_oz_recv1 = (struct OZObject *)f();\n"
        ++ "\tuse(OZ_PROTOCOL_SEND_run(_oz_recv1));\n\x7d"] ∧
      declared u.pending = ["_oz_recv2", "_oz_recv4"] ∧
      (∃ (ds : List TempDecl) (made : List (String × List TempDecl)),
        tempDeclsAll code ++ t.pending = ds ∧ t.blocks = made.map (·.1) ∧
        (declared (ds ++ made.flatMap (·.2))).Nodup) ∧
      ∃ ds, u.pending = t.pending ++ ds ∧ InOrder (declared t.pending) ds := by
  obtain ⟨⟨⟨code, blocks⟩, u⟩, hrun, hresult⟩ : ∃ r, (ReaderT.run (do
      let code ← lowerStmt 0 passedSend
      let _ ← lowerExpr sendInAndBesideBlock
      let t ← get
      let _ ← lowerExpr sendInAndBesideBlock
      return (code, t.blocks)) inTwoRunners).run {} = .ok r ∧
      (renderAll r.1.1, r.1.2, declared r.2.pending) =
        ("struct OZObject *_oz_recv0 = (struct OZObject *)f();\n"
          ++ "use(OZ_PROTOCOL_SEND_run(_oz_recv0));\n",
        ["static void _oz_block_L0_C0(void)\n\x7b\n"
          ++ "\tstruct OZObject *_oz_recv1 = (struct OZObject *)f();\n"
          ++ "\tuse(OZ_PROTOCOL_SEND_run(_oz_recv1));\n\x7d"],
        ["_oz_recv2", "_oz_recv4"]) := toOption_map_eq_some.mp (by decide +kernel)
  simp only [Prod.mk.injEq] at hresult
  obtain ⟨first, s, hfirst, hrest⟩ := yields_bind.mp hrun
  obtain ⟨_, t, hvalue, hrest⟩ := yields_bind.mp hrest
  obtain ⟨text, v, htext, hrest⟩ := yields_bind.mp (yields_get_bind.mp hrest)
  obtain ⟨hpair, rfl⟩ := yields_pure.mp hrest
  cases hpair
  have hsession : Session inTwoRunners {} code t := by
    have hsend : Discernible inTwoRunners passedSend :=
      discernible_of_texts rfl (by decide +kernel) (by decide +kernel)
    simpa using (Session.start.stmt hsend hfirst).expr discernible_sendInAndBesideBlock hvalue
  obtain ⟨-, ⟨ds, made, hpending, hblocks, -, hnodup, -⟩, hnext⟩ := generated_once_in_order discreet_initial hsession
  have hqueued := (hnext _ _ _ discernible_sendInAndBesideBlock htext).2
  exact ⟨code, t, text, u, hsession, htext, hresult.1, hresult.2.1, hresult.2.2,
    ⟨ds, made, by simpa using hpending, by simpa using hblocks, hnodup⟩, hqueued⟩

/-- A calm statement leaves nothing in the queue; and a generated variable that its text mentions is
declared where it is first mentioned. -/
theorem declared_where_first_mentioned (hn : Discernible env n) (hcalm : Calm env n) (hs : Discreet s)
    (hpending : s.pending = []) (h : Yields (lowerStmt depth n) env s code t) :
    t.pending = [] ∧
    ∀ w ∈ tempsIn (renderAll code), FirstDeclared (tempDeclsAll code) [] w (renderAll code) := by
  have hlaid := (laysBelow_level env n.depth).stmt hn hs h
  obtain ⟨ht, hscoped⟩ := hlaid.inScope hcalm hpending
  refine ⟨ht, fun w hw => ?_⟩
  exact (introduces_renderAll code hscoped w hw).resolve_left List.not_mem_nil

def whileSend : Node :=
  .bare "WhileStmt" [message "instance" "" "run" [callOf "f"], .bare "CompoundStmt" [passedSend]]

theorem loop_receivers_declared :
    ∃ code t, Yields (lowerStmt 0 whileSend) inTwoRunners {} code t ∧
      renderAll code = "struct OZObject *_oz_recv0 = (struct OZObject *)f();\n"
        ++ "while (OZ_PROTOCOL_SEND_run(_oz_recv0)) \x7b\n"
        ++ "\tstruct OZObject *_oz_recv1 = (struct OZObject *)f();\n"
        ++ "\tuse(OZ_PROTOCOL_SEND_run(_oz_recv1));\n\x7d\n" ∧
      t.pending = [] ∧
      ∀ w ∈ tempsIn (renderAll code), FirstDeclared (tempDeclsAll code) [] w (renderAll code) := by
  have hdiscernible : Discernible inTwoRunners whileSend :=
    discernible_of_texts rfl (by decide +kernel) (by decide +kernel)
  have hcalm : Calm inTwoRunners whileSend := calm_of_kinds rfl (by decide +kernel)
  exact exists_rendered (by decide +kernel)
    (declared_where_first_mentioned hdiscernible hcalm discreet_initial rfl)

def doSend : Node :=
  .bare "DoStmt" [.bare "CompoundStmt" [], message "instance" "" "run" [callOf "f"]]

theorem do_condition_undeclared :
    Discernible inTwoRunners doSend ∧
    ∃ code t, Yields (lowerStmt 0 doSend) inTwoRunners {} code t ∧
      renderAll code = "do \x7b\n\x7d\nwhile (OZ_PROTOCOL_SEND_run(_oz_recv0));\n" ∧
      tempsIn (renderAll code) = ["_oz_recv0"] ∧ tempDeclsAll code = [] ∧ declared t.pending = ["_oz_recv0"] := by
  refine ⟨discernible_of_texts rfl (by decide +kernel) (by decide +kernel), ?_⟩
  obtain ⟨⟨code, t⟩, hrun, hresult⟩ : ∃ r, ((lowerStmt 0 doSend).run inTwoRunners).run {} = .ok r ∧
      (renderAll r.1, tempsIn (renderAll r.1), tempDeclsAll r.1, declared r.2.pending) =
        ("do \x7b\n\x7d\nwhile (OZ_PROTOCOL_SEND_run(_oz_recv0));\n", ["_oz_recv0"], [], ["_oz_recv0"]) :=
    toOption_map_eq_some.mp (by decide +kernel)
  simp only [Prod.mk.injEq] at hresult
  exact ⟨code, t, hrun, hresult⟩

end ObjcLowering.Lowering
