import ObjcLowering.Proofs.Lowering.ExpressionHoists
import ObjcLowering.Proofs.Lowering.Stores

/-!
Where the temporaries of a statement come from: one for each of its sites, behind those that were
queued before.
-/

namespace ObjcLowering

namespace Code

mutual

def tempDecls : Code → List TempDecl
  | temp _ decl => [decl]
  | block _ body | whileLoop _ _ body | doLoop _ body _ | forLoop _ _ _ body | switchOn _ _ body =>
    tempDeclsAll body
  | branch _ _ _ yes _ no => tempDeclsAll yes ++ tempDeclsAll no
  | line _ _ | declare _ _ _ | assign _ _ _ | retain _ _ _ | release _ _ _ | returns _ _ | breaks _
  | continues _ | label _ _ => []

def tempDeclsAll : List Code → List TempDecl
  | [] => []
  | c :: cs => tempDecls c ++ tempDeclsAll cs

end

@[simp] theorem tempDeclsAll_nil : tempDeclsAll [] = [] := by rw [tempDeclsAll]

@[simp] theorem tempDeclsAll_cons (c : Code) (cs : List Code) :
    tempDeclsAll (c :: cs) = tempDecls c ++ tempDeclsAll cs := by rw [tempDeclsAll]

@[simp] theorem tempDeclsAll_append (cs ds : List Code) :
    tempDeclsAll (cs ++ ds) = tempDeclsAll cs ++ tempDeclsAll ds := by
  induction cs with
  | nil => simp
  | cons c cs ih => simp [ih]

theorem tempDeclsAll_map_temp (depth : Nat) (decls : List TempDecl) :
    tempDeclsAll (decls.map (.temp depth)) = decls := by
  induction decls with
  | nil => simp
  | cons d decls ih => simp [tempDecls, ih]

theorem tempDeclsAll_map_eq_nil {f : α → Code} (hf : ∀ x, tempDecls (f x) = [])
    (xs : List α) : tempDeclsAll (xs.map f) = [] := by
  induction xs with
  | nil => simp
  | cons x xs ih => simp [hf, ih]

end Code

namespace Lowering

open Ast Code Lowering.Frame

inductive StmtPart
  | text (ps : List Part)
  | own (p : Position)
  | stmt (p : Position)
  | branch (p : Position)

def exprAt (p : Position) : StmtPart := .text [.expr p]

def stmtsAt (p : Position) (start count : Nat) : List StmtPart :=
  (List.range' start count).map fun i => .stmt (p ++ [i])

def bracedParts (p : Position) (c : Node) : List StmtPart :=
  if c.kind = "CompoundStmt" then stmtsAt p 0 c.inner.length else [.stmt p]

def bodyParts (p : Position) (body : Option Node) : List StmtPart :=
  (body.map (bracedParts p)).getD []

def elseParts (p : Position) (body : Option Node) : List StmtPart :=
  (body.map fun c => if c.kind = "IfStmt" then [.branch p] else bracedParts p c).getD []

def branchParts (n : Node) : List StmtPart :=
  match n.inner with
  | [] => []
  | _ :: parts =>
    exprAt [0] :: (bodyParts [1] (parts.head?.filter fun b => !b.isNull)
      ++ elseParts [2] (if n.attrs.hasElse then parts.tail.head?.filter fun b => !b.isNull else none))

def headParts (p : Position) (part : Option Node) : List StmtPart :=
  match part with
  | some c => if c.kind = "NullStmt" || c.kind = "<<<NULL>>>" then [] else [exprAt p]
  | none => []

def initializerAt? (var : Node) : Option Nat := var.inner.findIdx? fun c => c.kind != "FullComment"

def initParts (c : Node) : List StmtPart :=
  if c.kind = "DeclStmt" then
    match c.inner.head?.filter fun d => d.kind == "VarDecl" with
    | some var => ((initializerAt? var).map fun i => [exprAt [0, 0, i]]).getD []
    | none => []
  else headParts [0] (some c)

def forParts (n : Node) : List StmtPart :=
  match n.inner with
  | init :: _ :: _ =>
    let shift := if n.inner.length > 4 then 1 else 0
    let last := if n.inner.length > 4 then 4 else n.inner.length - 1
    initParts init ++ headParts [1 + shift] n.inner[1 + shift]?
      ++ headParts [2 + shift] n.inner[2 + shift]?
      ++ bodyParts [last] (n.inner[last]?.filter fun b => !b.isNull)
  | _ => []

def varParts (p : Position) (var : Node) : List StmtPart :=
  if isShared var || ((initializer? var).filter fun e => !e.isNull).isNone then []
  else ((initializerAt? var).map fun i => [exprAt (p ++ [i])]).getD []

def declParts (start : Nat) : List Node → List StmtPart
  | [] => []
  | d :: ds => (if d.kind == "VarDecl" then varParts [start] d else []) ++ declParts (start + 1) ds

def firstAt (p : Position) (e : Node) : Position := if e.inner.isEmpty then p else p ++ [0]

def isPlainCast (e : Node) : Bool :=
  match e.attrs.type.get with
  | .ok type => e.kind == "ImplicitCastExpr" && e.castKind == "BitCast"
    && (type.qual == some "id" || type.qual == some "instancetype" || type.desugared == some "id")
  | .error _ => false

def castedAt (p : Position) (e : Node) : Position := if isPlainCast e then firstAt p e else p

def returnedAt (e : Node) : Position :=
  if e.kind = "ExprWithCleanups" then castedAt (firstAt [0] e) (e.inner.headD e)
  else castedAt [0] e

def storeParts (rhs : Node) : List StmtPart :=
  match handedOver? rhs with
  | .ok none => [.own [1]]
  | _ => []

/-- An assignment to a variable writes only the value if the variable owns its object, which is not
to be read off the statement. -/
def assignParts (env : Env) (n : Node) : List (List StmtPart) :=
  match n.inner with
  | [lhs, rhs] =>
    match strongIvar? env.cls lhs with
    | .ok (some _) => [exprAt [1] :: storeParts rhs]
    | _ => [[exprAt [1]], [.text (exprParts env n)]]
  | _ => [[.text (exprParts env n)]]

def guardParts (n : Node) : List StmtPart :=
  match n.inner with
  | _ :: body :: _ => exprAt [0] :: bracedParts [1] body
  | _ => []

def doParts (n : Node) : List StmtPart :=
  match n.inner with
  | body :: _ :: _ => bracedParts [0] body ++ [exprAt [1]]
  | _ => []

def poolParts (n : Node) : List StmtPart :=
  ((n.inner.head?.filter fun b => b.kind == "CompoundStmt").map fun body =>
    stmtsAt [0] 0 body.inner.length).getD []

def lockParts (n : Node) : List StmtPart :=
  match n.inner with
  | _ :: body :: _ =>
    exprAt [0] :: if body.kind = "CompoundStmt" then stmtsAt [1] 0 body.inner.length else []
  | _ => []

def forInParts (n : Node) : List StmtPart :=
  match n.inner with
  | _ :: _ :: body :: _ => exprAt [1] :: .own [1] :: .own [1] :: bracedParts [2] body
  | _ => []

def caseParts (n : Node) : List StmtPart :=
  match n.inner with
  | _ :: body => exprAt [0] :: stmtsAt [] 1 body.length
  | [] => []

def returnParts (n : Node) : List StmtPart :=
  (n.inner.head?.map fun e => [exprAt (returnedAt e)]).getD []

def stmtKindParts (env : Env) (n : Node) : List (List StmtPart) :=
  match n.kind with
  | "ExprWithCleanups" => [if n.inner.isEmpty then [] else [.stmt [0]]]
  | "ReturnStmt" => [returnParts n]
  | "DeclStmt" => [declParts 0 n.inner]
  | "IfStmt" => [branchParts n]
  | "ForStmt" => [forParts n]
  | "WhileStmt" | "SwitchStmt" => [guardParts n]
  | "DoStmt" => [doParts n]
  | "CompoundStmt" | "DefaultStmt" => [stmtsAt [] 0 n.inner.length]
  | "ObjCAutoreleasePoolStmt" => [poolParts n]
  | "ObjCAtSynchronizedStmt" => [lockParts n]
  | "ObjCForCollectionStmt" => [forInParts n]
  | "CaseStmt" => [caseParts n]
  | "NullStmt" | "BreakStmt" | "ContinueStmt" => [[]]
  | "BinaryOperator" => if n.opcode == "=" then assignParts env n else [[.text (exprParts env n)]]
  | _ => [[.text (exprParts env n)]]

def copyStmtParts? (env : Env) (n : Node) : Option (List Part) :=
  match endsInMacro n with
  | .ok true => copyParts? env n
  | _ => none

def stmtParts (env : Env) (n : Node) : List (List StmtPart) :=
  ((copyStmtParts? env n).map fun ps => [[.text ps]]).getD (stmtKindParts env n)

structure HoistSite where
  statement : Position
  part : Position
  deriving DecidableEq, Inhabited, Repr

namespace HoistSite

def position (site : HoistSite) : Position := site.statement ++ site.part

def under (p : Position) (site : HoistSite) : HoistSite := { site with statement := p ++ site.statement }

end HoistSite

structure SitesBelow where
  stmt : Node → List HoistSite → Prop
  branch : Node → List HoistSite → Prop

inductive PartsSites (env : Env) (k : Nat) (n : Node) (below : SitesBelow) :
    List StmtPart → List HoistSite → Prop
  | nil : PartsSites env k n below [] []
  | text :
      PartsSites env k n below ps sites →
      PartsSites env k n below (.text qs :: ps)
        ((qs.flatMap (Part.hoists (hoists env k) n)).map (HoistSite.mk []) ++ sites)
  | own :
      PartsSites env k n below ps sites → PartsSites env k n below (.own p :: ps) (⟨[], p⟩ :: sites)
  | stmt :
      n.part? p = some c → below.stmt c inside → PartsSites env k n below ps sites →
      PartsSites env k n below (.stmt p :: ps) (inside.map (HoistSite.under p) ++ sites)
  | branch :
      n.part? p = some c → below.branch c inside → PartsSites env k n below ps sites →
      PartsSites env k n below (.branch p :: ps) (inside.map (HoistSite.under p) ++ sites)

def sitesAt (env : Env) : Nat → SitesBelow
  | 0 =>
    { stmt := fun _ _ => False
      branch := fun _ _ => False }
  | k + 1 =>
    { stmt := fun n sites => ∃ ps ∈ stmtParts env n, PartsSites env k n (sitesAt env k) ps sites
      branch := fun n sites => PartsSites env k n (sitesAt env k) (branchParts n) sites }

def iteratorDecl (name value : String) : TempDecl :=
  ⟨name, "struct OZObject *" ++ name
    ++ " = (struct OZObject *)OZ_PROTOCOL_SEND_iter((struct OZObject *)" ++ value ++ ");"⟩

def cursorDecl (name iterator : String) : TempDecl :=
  ⟨name, "struct OZObject *" ++ name ++ " = " ++ iterator ++ ";"⟩

def storeDecl (type name value : String) : TempDecl := ⟨name, type ++ name ++ " = " ++ value ++ ";"⟩

inductive HeldFor (env : Env) : Node → TempDecl → Prop
  | iterator (number : Nat) : WrittenAs env m value →
      HeldFor env m (iteratorDecl ("_oz_iter" ++ toString number) value)
  | cursor (number iterator : Nat) :
      HeldFor env m
        (cursorDecl ("_oz_recv" ++ toString number) ("_oz_iter" ++ toString iterator))
  | store (number : Nat) (type : String) : WrittenAs env m value →
      HeldFor env m (storeDecl type ("_oz_recv" ++ toString number) value)

def HoistSite.Declares (env : Env) (n : Node) (site : HoistSite) (d : TempDecl) : Prop :=
  ∃ m, n.part? site.position = some m ∧ (DeclaredBy env m d ∨ HeldFor env m d)

end Lowering

end ObjcLowering
