import Mathlib.Logic.Relation
import ObjcLowering.Proofs.Lowering.StatementFrames

/-!
The blocks, switches and loops around a statement, from which the scopes and loops that the lowering
keeps are read off.
-/

namespace ObjcLowering.Lowering

open Ast Lowering.Frame

/-- A variable of an open block. One that a statement has left behind was not declared in the block
itself. -/
structure Entry where
  name : Name
  isLocal : Bool

/-- What stands around a statement. A scope is kept for blocks, but not for the body of a switch. -/
inductive Enclosure
  | scope (vars : List Entry)
  | switch (vars : List Entry)
  | loop

namespace Enclosure

def vars : Enclosure → List Entry
  | scope vars => vars
  | switch vars => vars
  | loop => []

def names (e : Enclosure) : List Name := e.vars.map Entry.name

def locals (e : Enclosure) : List Name := (e.vars.filter fun v => v.isLocal).map Entry.name

def strays (e : Enclosure) : List Name := (e.vars.filter fun v => !v.isLocal).map Entry.name

def isScope : Enclosure → Bool
  | scope _ => true
  | _ => false

def isLoop : Enclosure → Bool
  | loop => true
  | _ => false

end Enclosure

/-- The scopes that are kept for some surroundings, the innermost first. The variables of a switch,
`above`, go to the next scope outside. -/
def scopesOf (above : List Name) : List Enclosure → List (List Name)
  | [] => []
  | .scope vars :: rest => addAllNew [] (vars.map Entry.name ++ above) :: scopesOf [] rest
  | .switch vars :: rest => scopesOf (vars.map Entry.name ++ above) rest
  | .loop :: rest => scopesOf above rest

def loopsOf : List Enclosure → List Nat
  | [] => []
  | .loop :: rest => (scopesOf [] rest).length :: loopsOf rest
  | .scope _ :: rest => loopsOf rest
  | .switch _ :: rest => loopsOf rest

def extend (left : List Entry) : List Enclosure → List Enclosure
  | [] => []
  | .scope vars :: rest => .scope (vars ++ left) :: rest
  | .switch vars :: rest => .switch (vars ++ left) :: rest
  | .loop :: rest => .loop :: extend left rest

theorem scopesOf_append (a b : List Name) (around : List Enclosure) :
    scopesOf (a ++ b) around = trackAll b (scopesOf a around) := by
  induction around generalizing a with
  | nil => rfl
  | cons e rest ih =>
    cases e with
    | scope vars => simp [scopesOf, trackAll, addAllNew]
    | switch vars => simp only [scopesOf, ← List.append_assoc, ih]
    | loop => simp only [scopesOf, ih]

theorem scopesOf_extend (left : List Entry) (around : List Enclosure) :
    scopesOf [] (extend left around) = trackAll (left.map Entry.name) (scopesOf [] around) := by
  induction around with
  | nil => rfl
  | cons e rest ih =>
    cases e with
    | scope vars => simp [extend, scopesOf, trackAll, addAllNew]
    | switch vars => simp only [extend, scopesOf, List.append_nil, List.map_append, scopesOf_append]
    | loop => simp only [extend, scopesOf, ih]

theorem loopsOf_extend (left : List Entry) (around : List Enclosure) :
    loopsOf (extend left around) = loopsOf around := by
  induction around with
  | nil => rfl
  | cons e rest ih =>
    cases e with
    | scope vars => rfl
    | switch vars => rfl
    | loop => simp only [extend, loopsOf, scopesOf_extend, length_trackAll, ih]

def Mirrors (s : State) (around : List Enclosure) : Prop :=
  s.scopes = scopesOf [] around ∧ s.loops = loopsOf around

theorem Mirrors.grow (h : Mirrors s around)
    (hgrows : GrowsBy (left.map Entry.name) s t) : Mirrors t (extend left around) :=
  ⟨by rw [hgrows.2, h.1, scopesOf_extend], by rw [hgrows.1, h.2, loopsOf_extend]⟩

theorem Mirrors.expr (h : Mirrors s around)
    (hexpr : Yields ((level k).expr n) env s text t) : Mirrors t.flushed around := by
  obtain ⟨hscopes, hloops, -⟩ := level_expr_keeps_stacks k n env s text t hexpr
  exact ⟨hscopes.trans h.1, hloops.trans h.2⟩

/-- The statements are lowered one after the other, and `left` are the variables that they leave in
the block they stand in: those that it declares, below labels or not, and those of the bodies of
switches that are part of it. -/
inductive Passes (env : Env) :
    Nat → Nat → List Node → State → List Entry → State → Prop
  | nil : Passes env k depth [] s [] s
  | copied :
      Yields (copyStmt? (level k).expr n) env s (some text) t →
      Passes env (k + 1) depth ns t left u → Passes env (k + 1) depth (n :: ns) s left u
  | declares :
      n.kind = "DeclStmt" → Yields (copyStmt? (level k).expr n) env s none t →
      Yields (lowerStmtKind (level k) depth n) env t code u →
      Passes env (k + 1) depth ns u left v →
      Passes env (k + 1) depth (n :: ns) s ((ownersOf n).map (⟨·, true⟩) ++ left) v
  | case :
      n.kind = "CaseStmt" → n.inner = value :: body →
      Yields (copyStmt? (level k).expr n) env s none t →
      Yields ((level k).expr value) env t text u → Passes env k (depth + 1) body u left v →
      Passes env (k + 1) depth ns v left' w →
      Passes env (k + 1) depth (n :: ns) s (left ++ left') w
  | default :
      n.kind = "DefaultStmt" → Yields (copyStmt? (level k).expr n) env s none t →
      Passes env k (depth + 1) n.inner t left u → Passes env (k + 1) depth ns u left' v →
      Passes env (k + 1) depth (n :: ns) s (left ++ left') v
  | other :
      n.kind ≠ "DeclStmt" → n.kind ≠ "CaseStmt" → n.kind ≠ "DefaultStmt" →
      Yields ((level k).stmt depth n) env s code t → GrowsBy names s t →
      Passes env k depth ns t left u →
      Passes env k depth (n :: ns) s (names.map (⟨·, false⟩) ++ left) u

theorem Passes.grows (h : Passes env k depth ns s left t) : GrowsBy (left.map Entry.name) s t := by
  induction h with
  | nil => exact .of_eq rfl rfl
  | copied hcopy _ ih => exact (growsBy_of_stacks (stacks_copyStmt _ _ _ _ hcopy)).trans ih
  | declares hkind hcopy hn _ ih =>
    have hcopied := growsBy_of_stacks (stacks_copyStmt _ _ _ _ hcopy)
    have hall := (hcopied.trans (growsBy_declStmt hkind hn)).trans ih
    simpa [Function.comp_def] using hall
  | case _ _ hcopy hvalue _ _ ih ih' =>
    have hcopied := growsBy_of_stacks (stacks_copyStmt _ _ _ _ hcopy)
    have hread := growsBy_of_stacks (level_expr_keeps_stacks _ _ _ _ _ _ hvalue)
    simpa using ((hcopied.trans hread).trans ih).trans ih'
  | default _ hcopy _ _ ih ih' =>
    have hcopied := growsBy_of_stacks (stacks_copyStmt _ _ _ _ hcopy)
    simpa using (hcopied.trans ih).trans ih'
  | other _ _ _ _ hgrows _ ih => simpa [Function.comp_def] using hgrows.trans ih

inductive Task
  | stmts (depth : Nat) (ns : List Node)
  | stmt (depth : Nat) (n : Node)
  | form (depth : Nat) (n : Node)
  | branch (depth : Nat) (n : Node)
  | scope (depth : Nat) (n : Node)
  | braced (depth : Nat) (n : Node)

/-- A moment of the lowering: what is to be lowered, at which level and in which state, and what
stands around it. -/
structure Moment where
  level : Nat
  task : Task
  state : State
  around : List Enclosure

def PassesBraced (env : Env) (k depth : Nat) (n : Node) (s : State) (names : List Name)
    (t : State) : Prop :=
  GrowsBy names s t ∧
    if n.isNull then t = s else ∃ code, Yields (lowerBraced (level k) depth n) env s code t

inductive ComesToBody (env : Env) (k depth : Nat) (n : Node) (s : State) : Node → State → Prop
  | whileLoop :
      n.kind = "WhileStmt" → n.inner = test :: body :: rest →
      Yields ((level k).expr test) env s text t → ComesToBody env k depth n s body t.flushed
  | doLoop :
      n.kind = "DoStmt" → n.inner = body :: test :: rest → ComesToBody env k depth n s body s
  | forLoop :
      n.kind = "ForStmt" → n.inner = init :: second :: rest →
      i = (if n.inner.length > 4 then 2 else 1) →
      (if n.inner.length > 4 then n.inner[4]? else n.inner.getLast?) = some body →
      body.isNull = false →
      Yields (initPart (level k).expr init) env s first t →
      Yields (headPart (level k).expr n.inner[i]?) env t test u →
      Yields (headPart (level k).expr n.inner[i + 1]?) env u step v →
      ComesToBody env k depth n s body v.flushed

theorem ComesToBody.stacks (h : ComesToBody env k depth n s body t) :
    t.scopes = s.scopes ∧ t.loops = s.loops := by
  have hexpr := level_expr_keeps_stacks k
  cases h with
  | whileLoop _ _ hcond =>
    obtain ⟨hscopes, hloops, -⟩ := hexpr _ _ _ _ _ hcond
    exact ⟨hscopes, hloops⟩
  | doLoop _ _ => exact ⟨rfl, rfl⟩
  | forLoop _ _ _ _ _ hinit hcond hstep =>
    have hinit' := keeps_initPart (fun m _ => hexpr m) _ _ _ _ hinit
    have hcond' := keeps_headPart (fun m _ => hexpr m) _ _ _ _ hcond
    have hstep' := keeps_headPart (fun m _ => hexpr m) _ _ _ _ hstep
    obtain ⟨hscopes, hloops, -⟩ := stacksFrame.trans (stacksFrame.trans hinit' hcond') hstep'
    exact ⟨hscopes, hloops⟩

inductive Step (env : Env) : Moment → Moment → Prop
  | stmts :
      Passes env k depth before s left t →
      Step env ⟨k, .stmts depth (before ++ n :: after), s, around⟩
        ⟨k, .stmt depth n, t, extend left around⟩
  | stmt :
      Yields (copyStmt? (level k).expr n) env s none t →
      Step env ⟨k + 1, .stmt depth n, s, around⟩ ⟨k, .form depth n, t, around⟩
  | cleanups :
      n.kind = "ExprWithCleanups" → n.inner = m :: rest →
      Step env ⟨k, .form depth n, s, around⟩ ⟨k, .stmt depth m, s, around⟩
  | block :
      n.kind = "CompoundStmt" →
      Step env ⟨k, .form depth n, s, around⟩ ⟨k, .scope depth n, s, around⟩
  | pool :
      n.kind = "ObjCAutoreleasePoolStmt" → n.inner = body :: rest → body.kind = "CompoundStmt" →
      Step env ⟨k, .form depth n, s, around⟩ ⟨k, .scope depth body, s, around⟩
  | scope :
      Step env ⟨k, .scope depth n, s, around⟩
        ⟨k, .stmts (depth + 1) n.inner, s.entered [], .scope [] :: around⟩
  | braces :
      n.kind = "CompoundStmt" →
      Step env ⟨k, .braced depth n, s, around⟩ ⟨k, .scope depth n, s, around⟩
  | single :
      n.kind ≠ "CompoundStmt" →
      Step env ⟨k, .braced depth n, s, around⟩ ⟨k, .stmt (depth + 1) n, s, around⟩
  | lock :
      n.kind = "ObjCAtSynchronizedStmt" → n.inner = object :: body :: rest →
      body.kind = "CompoundStmt" →
      Yields ((level k).expr object) env { s with locks := s.locks + 1 } text t →
      Step env ⟨k, .form depth n, s, around⟩
        ⟨k, .stmts (depth + 1) body.inner,
          { t.flushed with scopes := [.text (lockName (s.locks + 1))] :: t.scopes },
          .scope [⟨.text (lockName (s.locks + 1)), true⟩] :: around⟩
  | branch :
      n.kind = "IfStmt" → Step env ⟨k, .form depth n, s, around⟩ ⟨k, .branch depth n, s, around⟩
  | yes :
      n.inner = test :: yes :: rest → yes.isNull = false →
      Yields ((level k).expr test) env s text t →
      Step env ⟨k, .branch depth n, s, around⟩ ⟨k, .braced depth yes, t.flushed, around⟩
  | no :
      n.inner = test :: yes :: no :: rest → n.attrs.hasElse = true → no.isNull = false →
      no.kind ≠ "IfStmt" → Yields ((level k).expr test) env s text t →
      PassesBraced env k depth yes t.flushed names u →
      Step env ⟨k, .branch depth n, s, around⟩
        ⟨k, .braced depth no, u, extend (names.map (⟨·, false⟩)) around⟩
  | chained :
      n.inner = test :: yes :: no :: rest → n.attrs.hasElse = true → no.isNull = false →
      no.kind = "IfStmt" → Yields ((level (k + 1)).expr test) env s text t →
      PassesBraced env (k + 1) depth yes t.flushed names u →
      Step env ⟨k + 1, .branch depth n, s, around⟩
        ⟨k, .branch depth no, u, extend (names.map (⟨·, false⟩)) around⟩
  | loop :
      ComesToBody env k depth n s body t →
      Step env ⟨k, .form depth n, s, around⟩
        ⟨k, .braced depth body, { t with loops := t.scopes.length :: t.loops }, .loop :: around⟩
  | forIn :
      n.kind = "ObjCForCollectionStmt" → n.inner = decl :: collection :: body :: rest →
      decl.firstChild = .ok var → (var.attrs.name.getD "obj").asKey = .ok name →
      Yields ((level k).expr collection) env s text t →
      Step env ⟨k, .form depth n, s, around⟩
        ⟨k, .braced (depth + 1) body,
          { t.flushed with
            scopes := [name] :: t.scopes
            loops := (t.scopes.length + 1) :: t.loops
            temps := t.temps + 2 },
          .loop :: .scope [⟨name, true⟩] :: around⟩
  | switch :
      n.kind = "SwitchStmt" → n.inner = test :: body :: rest → body.kind = "CompoundStmt" →
      Yields ((level k).expr test) env s text t →
      Step env ⟨k, .form depth n, s, around⟩
        ⟨k, .stmts depth body.inner, t.flushed, .switch [] :: around⟩
  | switchSingle :
      n.kind = "SwitchStmt" → n.inner = test :: body :: rest → body.kind ≠ "CompoundStmt" →
      Yields ((level k).expr test) env s text t →
      Step env ⟨k, .form depth n, s, around⟩
        ⟨k, .stmt depth body, t.flushed, .switch [] :: around⟩
  | case :
      n.kind = "CaseStmt" → n.inner = value :: body → Yields ((level k).expr value) env s text t →
      Step env ⟨k, .form depth n, s, around⟩ ⟨k, .stmts (depth + 1) body, t, around⟩
  | default :
      n.kind = "DefaultStmt" →
      Step env ⟨k, .form depth n, s, around⟩ ⟨k, .stmts (depth + 1) n.inner, s, around⟩

theorem Step.mirrors (h : Step env m m') (hm : Mirrors m.state m.around) :
    Mirrors m'.state m'.around := by
  cases h with
  | stmts hpasses => exact hm.grow hpasses.grows
  | stmt hcopy =>
    obtain ⟨hscopes, hloops, -⟩ := stacks_copyStmt _ _ _ _ hcopy
    exact ⟨hscopes.trans hm.1, hloops.trans hm.2⟩
  | cleanups _ _ => exact hm
  | block _ => exact hm
  | pool _ _ _ => exact hm
  | scope => exact ⟨congrArg (List.cons []) hm.1, hm.2⟩
  | braces _ => exact hm
  | single _ => exact hm
  | lock _ _ _ hobject =>
    obtain ⟨hscopes, hloops, -⟩ := level_expr_keeps_stacks _ _ _ _ _ _ hobject
    exact ⟨congrArg (List.cons _) (hscopes.trans hm.1), hloops.trans hm.2⟩
  | branch _ => exact hm
  | yes _ _ hcond => exact hm.expr hcond
  | no _ _ _ _ hcond hyes => exact (hm.expr hcond).grow (by simpa [Function.comp_def] using hyes.1)
  | chained _ _ _ _ hcond hyes =>
    exact (hm.expr hcond).grow (by simpa [Function.comp_def] using hyes.1)
  | loop hbody =>
    obtain ⟨hscopes, hloops⟩ := hbody.stacks
    refine ⟨hscopes.trans hm.1, ?_⟩
    rw [loopsOf, ← hm.1, ← hm.2, ← hloops, ← hscopes]
  | forIn _ _ _ _ hcollection =>
    have hread := hm.expr hcollection
    refine ⟨congrArg (List.cons _) hread.1, ?_⟩
    rw [loopsOf, scopesOf, loopsOf, ← hread.1, ← hread.2]
    rfl
  | switch _ _ _ hcond => exact hm.expr hcond
  | switchSingle _ _ _ hcond => exact hm.expr hcond
  | case _ _ hvalue => exact hm.expr hvalue
  | default _ => exact hm

def Moment.start (k : Nat) (params : List Param) (body : Node) (s : State) : Moment where
  level := k
  task := .stmts 1 body.inner
  state := s.entered params
  around := [.scope (params.map fun p => ⟨p.name, true⟩)]

abbrev Reaches (env : Env) (first m : Moment) : Prop := Relation.ReflTransGen (Step env) first m

theorem mirrors_start (hscopes : s.scopes = []) (hloops : s.loops = []) :
    Mirrors (Moment.start k params body s).state (Moment.start k params body s).around := by
  have hgrows := growsBy_tracked { s with scopes := [] :: s.scopes } params
  refine ⟨hgrows.2.trans ?_, hgrows.1.trans hloops⟩
  simp [Moment.start, scopesOf, trackAll, hscopes, Function.comp_def]

theorem Reaches.mirrors (h : Reaches env first m) (hfirst : Mirrors first.state first.around) :
    Mirrors m.state m.around := by
  induction h with
  | refl => exact hfirst
  | tail _ hstep ih => exact hstep.mirrors ih

end ObjcLowering.Lowering
