import ObjcLowering.Proofs.Lowering.ReleaseOrder

/-!
What a statement is lowered to, case by case: which parts are lowered in which states, and what the code
is made of.
-/

namespace ObjcLowering.Lowering

open Ast

inductive LoweredBody (lower : Node → Lower (List Code)) (env : Env) (s : State) :
    Option Node → Form → List Code → State → Prop
  | absent : LoweredBody lower env s none .absent [] s
  | braced : Yields (lower c) env s code s' →
      LoweredBody lower env s (some c) .braced code s'

inductive LoweredElse (below : Below) (env : Env) (depth : Nat) (s : State) :
    Option Node → Form → List Code → State → Prop
  | absent : LoweredElse below env depth s none .absent [] s
  | braced : c.kind ≠ "IfStmt" →
      Yields (lowerBraced below depth c) env s code s' →
      LoweredElse below env depth s (some c) .braced code s'
  | chained : c.kind = "IfStmt" →
      Yields (below.branch depth c) env s code s' →
      LoweredElse below env depth s (some c) .chained code s'

inductive LoweredBranch (below : Below) (env : Env) (depth : Nat) (n : Node) (s : State) :
    List Code → State → Prop
  | nothing : n.inner = [] → LoweredBranch below env depth n s [] s
  | parts {cond : Node} {parts : List Node} {other : Option Node} {text : String} {yesForm noForm : Form}
      {yes no : List Code} {t u s' : State} : n.inner = cond :: parts →
      other = (if n.attrs.hasElse then parts.tail.head?.filter fun b => !b.isNull else none) →
      Yields (below.expr cond) env s text t →
      LoweredBody (lowerBraced below depth) env t.flushed (parts.head?.filter fun b => !b.isNull) yesForm yes u →
      LoweredElse below env depth u other noForm no s' →
      LoweredBranch below env depth n s (temps depth t ++ [.branch depth text yesForm yes noForm no]) s'

inductive LoweredCases (below : Below) (env : Env) (depth : Nat) (body : Node) (s : State) :
    List Code → State → Prop
  | block : body.kind = "CompoundStmt" →
      Yields (lowerAll (below.stmt depth) body.inner) env s code s' →
      LoweredCases below env depth body s code s'
  | single : body.kind ≠ "CompoundStmt" →
      Yields (below.stmt depth body) env s code s' → LoweredCases below env depth body s code s'

inductive LoweredLock (below : Below) (env : Env) (depth : Nat) (body : Node) (s : State) :
    List Code → State → Prop
  | block : body.kind = "CompoundStmt" →
      Yields (lowerAll (below.stmt depth) body.inner) env s code s' →
      LoweredLock below env depth body s code s'
  | empty : body.kind ≠ "CompoundStmt" → LoweredLock below env depth body s [] s

inductive LoweredAssign (below : Below) (env : Env) (depth : Nat) (n : Node) (s : State) :
    List Code → State → Prop
  | ivar : n.inner = [lhs, rhs] →
      strongIvar? env.cls lhs = .ok (some ivar) → Stored below.expr env depth ivar lhs rhs s code s' →
      LoweredAssign below env depth n s code s'
  | variable {lhs rhs : Node} {var : Name} {text : String} {t : State} {tracked : Option Name} :
      n.inner = [lhs, rhs] → strongIvar? env.cls lhs = .ok none → DenotesTracked s lhs var →
      Yields (below.expr rhs) env s text t → trackedVar? t.flushed rhs = .ok tracked →
      LoweredAssign below env depth n s
        (temps depth t ++ (if tracked.isSome then [.retain depth env.root text] else [])
          ++ [.release depth env.root var.plain, .assign depth var.plain text]) (t.flushed.restore var)
  | expr :
      (∀ lhs rhs, n.inner = [lhs, rhs] → strongIvar? env.cls lhs = .ok none) →
      Yields (exprStep below n) env s text t →
      LoweredAssign below env depth n s (temps depth t ++ [.line depth (text ++ ";")]) t.flushed

def lockHead (root name object : String) : String :=
  "struct OZSpinLock *" ++ name ++ " = OZSpinLock_initWithObject(OZSpinLock_alloc(), (struct " ++ root
    ++ " *)" ++ object ++ ")"

def iteratorText (iterator collection : String) : String :=
  "struct OZObject *" ++ iterator ++ " = (struct OZObject *)OZ_PROTOCOL_SEND_iter((struct OZObject *)"
    ++ collection ++ ");"

def cursorText (receiver iterator : String) : String :=
  "struct OZObject *" ++ receiver ++ " = " ++ iterator ++ ";"

def nextText (type receiver : String) : String :=
  if type = "struct OZObject *" then "OZ_PROTOCOL_SEND_next(" ++ receiver ++ ")"
  else "(" ++ type ++ ")" ++ ("OZ_PROTOCOL_SEND_next(" ++ receiver ++ ")")

def itemType (raw : String) : String :=
  (SourceType.mk (.text (.ofList (dropPointerConst 0 raw.toList)))).cType

def forInHead (type receiver : String) (name : Name) : String :=
  s!"{type} {name} = {nextText type receiver}; {name} != ((void *)0); {name} = {nextText type receiver}"

def leastParts : String → Nat
  | "ExprWithCleanups" | "IfStmt" | "CaseStmt" => 1
  | "WhileStmt" | "DoStmt" | "ForStmt" | "SwitchStmt" | "ObjCAtSynchronizedStmt" => 2
  | "ObjCForCollectionStmt" => 3
  | _ => 0

/-- All ways of lowering a statement that is not copied from the use of a macro. -/
inductive Lowered (below : Below) (env : Env) (depth : Nat) (n : Node) (s : State) :
    List Code → State → Prop
  | nothing : n.inner.length < leastParts n.kind ∨
        n.kind = "ObjCAutoreleasePoolStmt" ∧ (n.inner.head?.filter fun b => b.kind == "CompoundStmt") = none →
      Lowered below env depth n s [] s
  | wrapped :
      n.kind = "ExprWithCleanups" → n.inner = c :: rest → Yields (below.stmt depth c) env s code s' →
      Lowered below env depth n s code s'
  | returns : n.kind = "ReturnStmt" →
      Returned below.expr env depth n s code s' → Lowered below env depth n s code s'
  | decls : n.kind = "DeclStmt" →
      Yields (lowerAll (lowerVarDecl below.expr depth) (n.inner.filter fun d => d.kind == "VarDecl")) env s
        code s' →
      Lowered below env depth n s code s'
  | branch : n.kind = "IfStmt" →
      LoweredBranch below env depth n s code s' → Lowered below env depth n s code s'
  | whileLoop {cond body : Node} {rest : List Node} {text : String} {t s' : State} {inside : List Code} :
      n.kind = "WhileStmt" → n.inner = cond :: body :: rest → Yields (below.expr cond) env s text t →
      Yields (lowerLoopBody below depth body) env t.flushed inside s' →
      Lowered below env depth n s (temps depth t ++ [.whileLoop depth text inside]) s'
  | doLoop {body cond : Node} {rest : List Node} {text : String} {t s' : State} {inside : List Code} :
      n.kind = "DoStmt" → n.inner = body :: cond :: rest →
      Yields (lowerLoopBody below depth body) env s inside t → Yields (below.expr cond) env t text s' →
      Lowered below env depth n s [.doLoop depth inside text] s'
  | forLoop {init second : Node} {rest : List Node} {body : Option Node} {a b c : String} {t u v s' : State}
      {shift : Nat} {form : Form} {inside : List Code} :
      n.kind = "ForStmt" → n.inner = init :: second :: rest →
      shift = (if n.inner.length > 4 then 1 else 0) →
      body = ((if n.inner.length > 4 then n.inner[4]? else n.inner.getLast?).filter fun b => !b.isNull) →
      Yields (initPart below.expr init) env s a t →
      Yields (headPart below.expr n.inner[1 + shift]?) env t b u →
      Yields (headPart below.expr n.inner[2 + shift]?) env u c v →
      LoweredBody (lowerLoopBody below depth) env v.flushed body form inside s' →
      Lowered below env depth n s
        (temps depth v ++ [.forLoop depth (a ++ "; " ++ b ++ "; " ++ c) form inside]) s'
  | block :
      n.kind = "CompoundStmt" ∧ c = n ∨ n.kind = "ObjCAutoreleasePoolStmt" ∧
        (n.inner.head?.filter fun b => b.kind == "CompoundStmt") = some c →
      Yields (lowerScope below depth [] c) env s inside s' →
      Lowered below env depth n s [.block depth inside] s'
  | lock :
      n.kind = "ObjCAtSynchronizedStmt" → n.inner = object :: body :: rest →
      Yields (below.expr object) env { s with locks := s.locks + 1 } text t →
      LoweredLock below env (depth + 1) body
        { t.flushed with scopes := [.text (lockName (s.locks + 1))] :: t.scopes } inside u →
      Lowered below env depth n s
        (temps depth t ++ [.block depth
          (.declare (depth + 1) (lockName (s.locks + 1)) (lockHead env.root (lockName (s.locks + 1)) text)
            :: inside ++ exitCode (depth + 1) env.root u body.inner)]) u.left
  | forIn {decl collection body var : Node} {rest : List Node} {raw text : String} {t u : State}
      {inside : List Code} :
      n.kind = "ObjCForCollectionStmt" → n.inner = decl :: collection :: body :: rest →
      decl.firstChild = .ok var → var.qualTypeOr "id" = .ok (.text raw) →
      Yields (below.expr collection) env s text t →
      Yields (lowerLoopBody below (depth + 1) body) env
        { t.flushed with temps := t.temps + 2, scopes := [var.attrs.name.getD "obj"] :: t.scopes } inside u →
      Lowered below env depth n s
        (temps depth t ++ [.block depth
          [.temp (depth + 1) ⟨"_oz_iter" ++ toString t.temps, iteratorText ("_oz_iter" ++ toString t.temps) text⟩,
           .temp (depth + 1) ⟨"_oz_recv" ++ toString (t.temps + 1),
            cursorText ("_oz_recv" ++ toString (t.temps + 1)) ("_oz_iter" ++ toString t.temps)⟩,
           .forLoop (depth + 1)
            (forInHead (itemType raw) ("_oz_recv" ++ toString (t.temps + 1)) (var.attrs.name.getD "obj"))
            .braced inside]]) u.left
  | switch {cond body : Node} {rest : List Node} {text : String} {t s' : State} {inside : List Code} :
      n.kind = "SwitchStmt" → n.inner = cond :: body :: rest → Yields (below.expr cond) env s text t →
      LoweredCases below env depth body t.flushed inside s' →
      Lowered below env depth n s (temps depth t ++ [.switchOn depth text inside]) s'
  | case {value : Node} {body : List Node} {text : String} {t s' : State} {inside : List Code} :
      n.kind = "CaseStmt" → n.inner = value :: body → Yields (below.expr value) env s text t →
      Yields (lowerAll (below.stmt (depth + 1)) body) env t inside s' →
      Lowered below env depth n s (.label depth ("case " ++ text) :: inside) s'
  | default : n.kind = "DefaultStmt" →
      Yields (lowerAll (below.stmt (depth + 1)) n.inner) env s inside s' →
      Lowered below env depth n s (.label depth "default" :: inside) s'
  | null : n.kind = "NullStmt" → Lowered below env depth n s [.line depth ";"] s
  | breaks : n.kind = "BreakStmt" →
      Lowered below env depth n s
        (releases depth env.root (s.scopesInLoop.flatMap s.owned) ++ [.breaks depth]) s
  | continues : n.kind = "ContinueStmt" →
      Lowered below env depth n s
        (releases depth env.root (s.scopesInLoop.flatMap s.owned) ++ [.continues depth]) s
  | assign : n.kind = "BinaryOperator" → n.opcode = "=" →
      LoweredAssign below env depth n s code s' → Lowered below env depth n s code s'
  | expr : n.kind ∉ controlKinds →
      (n.kind = "BinaryOperator" → n.opcode ≠ "=") → Yields (exprStep below n) env s text t →
      Lowered below env depth n s (temps depth t ++ [.line depth (text ++ ";")]) t.flushed

theorem length_lt_two {ns : List Node} (h : ∀ a b rest, ns = a :: b :: rest → False) : ns.length < 2 := by
  rcases ns with _ | ⟨a, _ | ⟨b, rest⟩⟩
  · decide
  · exact Nat.lt_succ_self 1
  · exact absurd rfl (h a b rest)

theorem length_lt_three {ns : List Node} (h : ∀ a b c rest, ns = a :: b :: c :: rest → False) :
    ns.length < 3 := by
  rcases ns with _ | ⟨a, ns⟩
  · exact Nat.zero_lt_succ 2
  · exact Nat.succ_lt_succ (length_lt_two fun b c rest hns => h a b c rest (by rw [hns]))

theorem loweredElse_of_yields {f : Form → List Code → List Code} (h : Yields (if c.kind = "IfStmt" then do
        let no ← below.branch depth c
        pure (f .chained no)
      else do
        let no ← lowerBraced below depth c
        pure (f .braced no)) env s code s') :
    ∃ form no, code = f form no ∧ LoweredElse below env depth s (some c) form no s' := by
  split at h
  · next hkind =>
    obtain ⟨no, t, hno, h⟩ := yields_bind.mp h
    obtain ⟨rfl, rfl⟩ := yields_pure.mp h
    exact ⟨.chained, no, rfl, .chained hkind hno⟩
  · next hkind =>
    obtain ⟨no, t, hno, h⟩ := yields_bind.mp h
    obtain ⟨rfl, rfl⟩ := yields_pure.mp h
    exact ⟨.braced, no, rfl, .braced hkind hno⟩

theorem loweredBranch_of_yields (h : Yields (branchStep below depth n) env s code s') :
    LoweredBranch below env depth n s code s' := by
  unfold branchStep at h
  split at h
  · next hinner =>
    obtain ⟨rfl, rfl⟩ := yields_pure.mp h
    exact .nothing hinner
  · next cond parts hinner =>
    obtain ⟨text, t, htext, h⟩ := yields_bind.mp h
    rw [yields_flush_bind] at h
    generalize hother : (if n.attrs.hasElse = true then _ else none : Option Node) = other at h
    simp only [pure_bind] at h
    have hparts : ∀ {form yes u}, LoweredBody (lowerBraced below depth) env t.flushed
        (parts.head?.filter fun b => !b.isNull) form yes u →
        Yields (other.elim (pure (temps depth t ++ [.branch depth text form yes .absent []])) fun c =>
            if c.kind = "IfStmt" then do
              let no ← below.branch depth c
              pure (temps depth t ++ [.branch depth text form yes .chained no])
            else do
              let no ← lowerBraced below depth c
              pure (temps depth t ++ [.branch depth text form yes .braced no])) env u code s' →
        LoweredBranch below env depth n s code s' := by
      intro form yes u hyes h
      cases other with
      | none =>
        obtain ⟨rfl, rfl⟩ := yields_pure.mp h
        exact .parts hinner hother.symm htext hyes .absent
      | some c =>
        obtain ⟨noForm, no, rfl, hno⟩ := loweredElse_of_yields
          (f := fun noForm no => temps depth t ++ [Code.branch depth text form yes noForm no]) h
        exact .parts hinner hother.symm htext hyes hno
    cases hbody : parts.head?.filter fun b => !b.isNull with
    | some body =>
      rw [hbody] at h
      obtain ⟨yes, u, hyes, h⟩ := yields_bind.mp h
      exact hparts (by rw [hbody]; exact .braced hyes) (by cases other <;> exact h)
    | none =>
      rw [hbody] at h
      exact hparts (by rw [hbody]; exact .absent) (by cases other <;> exact h)

theorem written_of_exprStmt (h : Yields (lowerExprStmt below depth n) env s code s') :
    ∃ text t, Yields (exprStep below n) env s text t ∧ code = temps depth t ++ [.line depth (text ++ ";")] ∧
      s' = t.flushed := by
  simp only [lowerExprStmt, yields_bind, yields_flush, yields_pure] at h
  obtain ⟨text, t, htext, _, _, ⟨rfl, rfl⟩, rfl, rfl⟩ := h
  exact ⟨text, t, htext, rfl, rfl⟩

theorem loweredAssign_of_yields (h : Yields (lowerAssign below depth n) env s code s') :
    LoweredAssign below env depth n s code s' := by
  replace h := yields_bind_children h
  split at h
  · next lhs rhs hinner =>
    obtain ⟨ivar, hivar, h⟩ := yields_liftM_bind.mp (yields_read_bind.mp h)
    cases ivar with
    | some ivar => exact .ivar hinner hivar (stored_of_yields h)
    | none =>
      obtain ⟨var, hvar, h⟩ := yields_liftM_bind.mp (yields_get_bind.mp h)
      cases var with
      | some var =>
        obtain ⟨text, t, tracked, htext, htracked, rfl, rfl⟩ := yields_assignLocal.mp h
        exact .variable hinner hivar (trackedVar_eq_some.mp hvar) htext htracked
      | none =>
        obtain ⟨text, t, htext, rfl, rfl⟩ := written_of_exprStmt h
        refine .expr (fun lhs' rhs' hinner' => ?_) htext
        obtain ⟨rfl, -⟩ := List.cons.inj (hinner.symm.trans hinner')
        exact hivar
  · next hinner =>
    obtain ⟨text, t, htext, rfl, rfl⟩ := written_of_exprStmt h
    exact .expr (fun lhs rhs h => (hinner lhs rhs h).elim) htext

theorem lowered_of_short (hkind : n.kind = kind) (hshort : n.inner.length < leastParts kind)
    (h : Yields (pure []) env s code s') : Lowered below env depth n s code s' := by
  obtain ⟨rfl, rfl⟩ := yields_pure.mp h
  exact .nothing (.inl (by rwa [hkind]))

theorem lowered_of_while (hkind : n.kind = "WhileStmt")
    (h : Yields (lowerWhile below depth n) env s code s') : Lowered below env depth n s code s' := by
  replace h := yields_bind_children h
  split at h
  · next cond body rest hinner =>
    simp only [yields_bind, yields_flush, yields_pure] at h
    obtain ⟨text, t, htext, _, _, ⟨rfl, rfl⟩, inside, _, hbody, rfl, rfl⟩ := h
    exact .whileLoop hkind hinner htext hbody
  · next hshort => exact lowered_of_short hkind (length_lt_two hshort) h

theorem lowered_of_do (hkind : n.kind = "DoStmt")
    (h : Yields (lowerDo below depth n) env s code s') : Lowered below env depth n s code s' := by
  replace h := yields_bind_children h
  split at h
  · next body cond rest hinner =>
    simp only [yields_bind, yields_pure] at h
    obtain ⟨inside, t, hbody, text, _, htext, rfl, rfl⟩ := h
    exact .doLoop hkind hinner hbody htext
  · next hshort => exact lowered_of_short hkind (length_lt_two hshort) h

theorem lowered_of_for (hkind : n.kind = "ForStmt")
    (h : Yields (lowerFor below depth n) env s code s') : Lowered below env depth n s code s' := by
  replace h := yields_bind_children h
  split at h
  · next init second rest hinner =>
    dsimp only at h
    obtain ⟨a, t, ha, h⟩ := yields_bind.mp h
    obtain ⟨b, u, hb, h⟩ := yields_bind.mp h
    obtain ⟨c, v, hc, h⟩ := yields_bind.mp h
    rw [yields_flush_bind] at h
    rw [← hinner] at hb hc h
    cases hbody : (if n.inner.length > 4 then n.inner[4]? else n.inner.getLast?).filter fun b => !b.isNull with
    | some body =>
      rw [hbody] at h
      obtain ⟨inside, w, hinside, h⟩ := yields_bind.mp h
      obtain ⟨rfl, rfl⟩ := yields_pure.mp h
      exact .forLoop hkind hinner rfl hbody.symm ha hb hc (.braced hinside)
    | none =>
      rw [hbody] at h
      obtain ⟨rfl, rfl⟩ := yields_pure.mp h
      exact .forLoop hkind hinner rfl hbody.symm ha hb hc .absent
  · next hshort => exact lowered_of_short hkind (length_lt_two hshort) h

theorem lowered_of_forIn (hkind : n.kind = "ObjCForCollectionStmt")
    (h : Yields (lowerForIn below depth n) env s code s') : Lowered below env depth n s code s' := by
  replace h := yields_bind_children h
  split at h
  · next decl collection body rest hinner =>
    obtain ⟨var, hvar, h⟩ := yields_liftM_bind.mp h
    obtain ⟨type, htype, h⟩ := yields_liftM_bind.mp h
    obtain ⟨raw, hraw, h⟩ := yields_liftM_bind.mp h
    obtain ⟨text, t, htext, h⟩ := yields_bind.mp h
    rw [yields_flush_bind] at h
    simp only [freshTemp, bind_assoc, yields_get_bind, yields_set_bind, yields_pure_bind] at h
    obtain ⟨name, hname, h⟩ := yields_liftM_bind.mp h
    obtain ⟨_, _, hopen, h⟩ := yields_bind.mp h
    obtain rfl := yields_openScope.mp hopen
    obtain ⟨inside, u, hinside, h⟩ := yields_bind.mp h
    obtain ⟨_, _, hclose, h⟩ := yields_bind.mp h
    obtain rfl := yields_closeScope.mp hclose
    obtain ⟨rfl, rfl⟩ := yields_pure.mp h
    rw [textOr_eq_ok hraw] at htype
    rw [asKey_eq_ok hname] at hinside
    exact .forIn hkind hinner hvar htype htext hinside
  · next hshort => exact lowered_of_short hkind (length_lt_three hshort) h

theorem lowered_of_synchronized (hkind : n.kind = "ObjCAtSynchronizedStmt")
    (h : Yields (lowerSynchronized below depth n) env s code s') : Lowered below env depth n s code s' := by
  replace h := yields_bind_children h
  split at h
  · next object body rest hinner =>
    obtain ⟨text, t, htext, h⟩ := yields_bind.mp (yields_get_bind.mp (yields_modify_bind.mp h))
    rw [yields_flush_bind] at h
    obtain ⟨_, _, hroot, h⟩ := yields_bind.mp h
    obtain ⟨rfl, rfl⟩ := yields_root.mp hroot
    obtain ⟨_, u, hopen, h⟩ := yields_bind.mp h
    obtain rfl := yields_openScope.mp hopen
    split at h
    · next hblock =>
      replace h := yields_bind_children h
      simp only [yields_bind, yields_releaseAtEnd, yields_closeScope, yields_pure] at h
      obtain ⟨inside, w, hinside, _, _, ⟨rfl, rfl⟩, _, _, rfl, rfl, rfl⟩ := h
      exact .lock hkind hinner htext (.block hblock hinside)
    · next hblock =>
      simp only [yields_bind, yields_releaseAtEnd, yields_closeScope, yields_pure] at h
      obtain ⟨_, _, ⟨rfl, rfl⟩, _, _, ⟨rfl, rfl⟩, _, _, rfl, rfl, rfl⟩ := h
      exact .lock hkind hinner htext (.empty hblock)
  · next hshort => exact lowered_of_short hkind (length_lt_two hshort) h

theorem lowered_of_switch (hkind : n.kind = "SwitchStmt")
    (h : Yields (lowerSwitch below depth n) env s code s') : Lowered below env depth n s code s' := by
  replace h := yields_bind_children h
  split at h
  · next cond body rest hinner =>
    simp only [yields_bind, yields_flush] at h
    obtain ⟨text, t, htext, _, _, ⟨rfl, rfl⟩, h⟩ := h
    split at h
    · next hblock =>
      replace h := yields_bind_children h
      obtain ⟨inside, u, hinside, h⟩ := yields_bind.mp h
      obtain ⟨rfl, rfl⟩ := yields_pure.mp h
      exact .switch hkind hinner htext (.block hblock hinside)
    · next hblock =>
      obtain ⟨inside, u, hinside, h⟩ := yields_bind.mp h
      obtain ⟨rfl, rfl⟩ := yields_pure.mp h
      exact .switch hkind hinner htext (.single hblock hinside)
  · next hshort => exact lowered_of_short hkind (length_lt_two hshort) h

theorem lowered_of_case (hkind : n.kind = "CaseStmt")
    (h : Yields (lowerCase below depth n) env s code s') : Lowered below env depth n s code s' := by
  unfold lowerCase at h
  split at h
  · next value body hinner =>
    simp only [yields_bind, yields_pure] at h
    obtain ⟨text, t, htext, inside, _, hinside, rfl, rfl⟩ := h
    exact .case hkind hinner htext hinside
  · next hinner => exact lowered_of_short hkind (by rw [hinner]; exact Nat.zero_lt_one) h

theorem lowered_of_yields (h : Yields (lowerStmtKind below depth n) env s code s') :
    Lowered below env depth n s code s' := by
  unfold lowerStmtKind at h
  split at h
  case h_1 hkind =>
    split at h
    · next c rest hinner => exact .wrapped hkind hinner h
    · next hinner => exact lowered_of_short hkind (by rw [hinner]; exact Nat.zero_lt_one) h
  case h_2 hkind => exact .returns hkind (returned_of_yields h)
  case h_3 hkind =>
    replace h := yields_bind_children h
    exact .decls hkind h
  case h_4 hkind => exact .branch hkind (loweredBranch_of_yields h)
  case h_5 hkind => exact lowered_of_for hkind h
  case h_6 hkind => exact lowered_of_while hkind h
  case h_7 hkind => exact lowered_of_do hkind h
  case h_8 hkind =>
    obtain ⟨inside, t, hinside, h⟩ := yields_bind.mp h
    obtain ⟨rfl, rfl⟩ := yields_pure.mp h
    exact .block (.inl ⟨hkind, rfl⟩) hinside
  case h_9 hkind =>
    split at h
    · next body hbody =>
      obtain ⟨inside, t, hinside, h⟩ := yields_bind.mp h
      obtain ⟨rfl, rfl⟩ := yields_pure.mp h
      exact .block (.inr ⟨hkind, hbody⟩) hinside
    · next hbody =>
      obtain ⟨rfl, rfl⟩ := yields_pure.mp h
      exact .nothing (.inr ⟨hkind, hbody⟩)
  case h_10 hkind => exact lowered_of_synchronized hkind h
  case h_11 hkind => exact lowered_of_forIn hkind h
  case h_12 hkind => exact lowered_of_switch hkind h
  case h_13 hkind => exact lowered_of_case hkind h
  case h_14 hkind =>
    replace h := yields_bind_children h
    obtain ⟨inside, t, hinside, h⟩ := yields_bind.mp h
    obtain ⟨rfl, rfl⟩ := yields_pure.mp h
    exact .default hkind hinside
  case h_15 hkind =>
    obtain ⟨rfl, rfl⟩ := yields_pure.mp h
    exact .null hkind
  case h_16 hkind =>
    simp only [yields_bind, yields_releaseLoop, yields_pure] at h
    obtain ⟨_, _, ⟨rfl, rfl⟩, rfl, rfl⟩ := h
    exact .breaks hkind
  case h_17 hkind =>
    simp only [yields_bind, yields_releaseLoop, yields_pure] at h
    obtain ⟨_, _, ⟨rfl, rfl⟩, rfl, rfl⟩ := h
    exact .continues hkind
  case h_18 hkind =>
    split at h
    · next hop => exact .assign hkind (by simpa using hop) (loweredAssign_of_yields h)
    · next hop =>
      obtain ⟨text, t, htext, rfl, rfl⟩ := written_of_exprStmt h
      exact .expr (by rw [hkind]; decide) (fun _ => by simpa using hop) htext
  case h_19 =>
    obtain ⟨text, t, htext, rfl, rfl⟩ := written_of_exprStmt h
    exact .expr (by simp_all [controlKinds]) (fun hkind => by contradiction) htext

theorem copied_or_lowered_of_yields (h : Yields (stmtStep below depth n) env s code s') :
    (∃ text, code = [.line depth (text ++ ";")] ∧ Yields (copyStmt? below.expr n) env s (some text) s') ∨
      ∃ t, Yields (copyStmt? below.expr n) env s none t ∧ Lowered below env depth n t code s' := by
  simp only [stmtStep, yields_liftM_bind, Node.check_eq_ok] at h
  obtain ⟨_, ⟨-, rfl⟩, h⟩ := h
  obtain ⟨copy, t, hcopy, h⟩ := yields_bind.mp h
  cases copy with
  | some text =>
    obtain ⟨rfl, rfl⟩ := yields_pure.mp h
    exact .inl ⟨text, rfl, hcopy⟩
  | none => exact .inr ⟨t, hcopy, lowered_of_yields h⟩

end ObjcLowering.Lowering
