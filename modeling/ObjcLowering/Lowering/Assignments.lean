import ObjcLowering.Lowering.Context
import ObjcLowering.Lowering.Ownership

namespace ObjcLowering.Lowering

open Ast

/-- The declaration of a variable. An object variable belongs to the innermost scope, unless it only
borrows; a borrowed value of such a variable is retained. -/
def lowerVarDecl (expr : Node → Lower String) (depth : Nat) (n : Node) : Lower (List Code) := do
  let raw ← n.qualTypeOr "int"
  let parts ← n.children
  if parts.any fun c => c.kind == "BlocksAttr" then return []
  else
    let type ← (SourceType.mk raw).checked
    let name := n.attrs.name.getD "_anon"
    let init := parts.find? fun c => c.kind != "FullComment"
    if type.isStrongObject && name != "self" && !((init.map isBridgeCast).getD false) then
      unless (← get).scopes.isEmpty do discard (name.asKey : Except Fault Name)
      modify (·.track name)
    match init.filter fun e => !e.isNull with
    | none => return [.declare depth name.plain (type.declare name)]
    | some e =>
      let value ← expr e
      let before ← flush depth
      let env ← read
      let isKept := type.isObject && name != "self" && (← get).isTrackedInnermost name
      let isRetained ← if isKept then liftM (isBorrowed env.owning e) else pure false
      return before ++ [.declare depth name.plain (type.declare name ++ " = " ++ value)]
        ++ (if isRetained then [.retain depth env.root name.plain] else [])

def trackedVar? (s : State) (n : Node) : Except Fault (Option Name) := do
  let e := n.belowCasts
  if e.kind != "DeclRefExpr" then return none
  let name ← e.referencedName
  if !name.holds || name == "self" then return none
  return if ← s.checkTracked name then some name else none

def strongIvar? (cls : ClassDecl) (n : Node) : Except Fault (Option Name) := do
  let e := n.belowCasts
  if e.kind != "ObjCIvarRefExpr" then return none
  let name := (← e.attrs.decl.get).name.getD ""
  let isStrong ← (cls.ivars.filter fun v => v.name == name).anyM fun v => do
    return (← v.type.checked).isStrongObject
  return if isStrong then some name else none

/-- An assignment to a tracked variable releases its old value. The new value is retained if it is
that of a tracked variable. -/
def assignLocal (expr : Node → Lower String) (depth : Nat) (var : Name) (rhs : Node) :
    Lower (List Code) := do
  let r ← root
  let value ← expr rhs
  let before ← flush depth
  let isRetained := (← trackedVar? (← get) rhs).isSome
  modify (·.restore var)
  return before ++ (if isRetained then [.retain depth r value] else [])
    ++ [.release depth r var.plain, .assign depth var.plain value]

def isParam (env : Env) (name : Name) : Bool :=
  ((env.method.map fun m => m.params.any fun p => p.name == name)).getD false

/-- An assignment to a strong instance variable releases its old value. A parameter is retained; a
local variable gives its reference away; any other value is taken over through a temporary. -/
def assignIvar (expr : Node → Lower String) (depth : Nat) (ivar : Name) (lhs rhs : Node) :
    Lower (List Code) := do
  let env ← read
  let value ← expr rhs
  let before ← flush depth
  let store (value : String) : List Code :=
    [.release depth env.root s!"self->{ivar}", .assign depth s!"self->{ivar}" value]
  match (← returnedVar? rhs).filter fun (v : Name) => v.holds && v != "self" with
  | some var =>
    if isParam env var then return before ++ .retain depth env.root value :: store value
    else
      if ← (← get).checkTracked var then modify (·.consume var)
      return before ++ store value
  | none =>
    let name := "_oz_recv" ++ toString (← freshTemp)
    let type ← (SourceType.mk (← lhs.belowCasts.qualTypeOr "id")).checked
    return before
      ++ .temp depth ⟨name, type.cType ++ name ++ " = " ++ value ++ ";"⟩ :: store name

/-- What a return statement computes: its expression without the wrapper for cleanups and without a
cast to `id`, since functions return pointers to the struct of a class. -/
def returnValue (e : Node) : Except Fault Node := do
  let e ← (if e.kind = "ExprWithCleanups" then e.inner.headD e else e).check
  let type ← e.attrs.type.get
  let isPlain := type.qual == some "id" || type.qual == some "instancetype"
    || type.desugared == some "id"
  return if e.kind = "ImplicitCastExpr" && e.castKind == "BitCast" && isPlain then e.inner.headD e
    else e

def lowerReturn (expr : Node → Lower String) (depth : Nat) (n : Node) : Lower (List Code) := do
  match n.inner with
  | [] => return (← releaseForReturn depth none) ++ [.returns depth none]
  | e :: _ =>
    let releases ← releaseForReturn depth (← returnedVar? e)
    let value ← expr (← returnValue e)
    let before ← flush depth
    return releases ++ before ++ [.returns depth (some value)]

end ObjcLowering.Lowering
