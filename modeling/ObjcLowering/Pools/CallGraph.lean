import ObjcLowering.Pools.Layout

namespace ObjcLowering.Pools

open Ast

abbrev Counts := Table Name (Table Name Int)

def Counts.bump (counts : Counts) (function name : Name) : Except Fault Counts := do
  let function ← function.asKey
  return counts.set function (((counts.find? function).getD {}).bump (← name.asKey) 1)

def classOfType (type : String) : Option String :=
  let bare := bareType type
  let bare := if Text.ends "*" bare then Text.trim (Text.dropEnd 1 bare) else bare
  match bare.toList with
  | [] => none
  | c :: _ => if Text.isUpper c && !Text.has " " bare then some bare else none

mutual

def calleeName : Node → Except Fault (Option Name)
  | .mk a ns => do
    if a.isAlien then throw .unfit
    a.checkInner
    calleeNameList ns

def calleeNameList : List Node → Except Fault (Option Name)
  | [] => .ok none
  | n :: ns =>
    if n.attrs.isAlien then .error .unfit
    else if n.kind = "DeclRefExpr" then n.referencedName.map some
    else if n.kind = "ImplicitCastExpr" then calleeName n
    else calleeNameList ns

end

def isThreadEntry (n : Node) : Except Fault Bool := do
  if !n.name.holds || n.name == "main" then return false
  let params := (← n.children).filter fun c => c.kind == "ParmVarDecl"
  if params.length != 3 then return false
  params.allM fun p => do (← p.qualType).mentions "void *"

structure Analysis where
  allocs : Counts := {}
  calls : Counts := {}
  threads : List Name := []
  deriving Inhabited, Repr

def Analysis.addMessage (found : Analysis) (function : Name) (n : Node) : Except Fault Analysis := do
  if n.selector == "alloc" && n.receiverKind == "class" then
    let cls := (← n.attrs.classType.get).qual.getD ""
    if cls.holds then return { found with allocs := ← found.allocs.bump function cls }
    else return found
  else if n.receiverKind == "instance" && n.selector.holds then
    match n.inner with
    | receiver :: _ =>
      match classOfType (← (← (← receiver.check).qualType).textOr .unfit) with
      | some cls => return { found with calls := ← found.calls.bump function s!"{cls}.{n.selector}" }
      | none => return found
    | [] => return found
  else return found

def Analysis.addCall (found : Analysis) (function : Name) (n : Node) : Except Fault Analysis := do
  match stated? (← calleeName n) with
  | some callee => return { found with calls := ← found.calls.bump function callee }
  | none => return found

def isFunction (n : Node) : Bool := n.kind == "FunctionDecl" && n.name.holds

def functionOf (function cls : Name) (n : Node) : Name :=
  if isFunction n then n.name
  else if n.kind = "ObjCMethodDecl" && cls.holds then s!"{cls}.{n.name}"
  else function

def Analysis.addNode (found : Analysis) (function : Name) (n : Node) : Except Fault Analysis := do
  let isEntry ← if isFunction n then isThreadEntry n else .ok false
  if isEntry then return { found with threads := addNew found.threads (← n.name.asKey) }
  else if n.kind = "ObjCMessageExpr" && function.holds then found.addMessage function n
  else if n.kind = "CallExpr" && function.holds then found.addCall function n
  else return found

mutual

/-- Adds what a tree contains, inside `function` and the implementation of `cls` ("" for none). -/
def analyzeNode (function cls : Name) (found : Analysis) : Node → Except Fault Analysis
  | .mk a ns => do
    if a.isAlien then throw .unfit
    let n := Node.mk a ns
    let cls := if a.kind = "ObjCImplementationDecl" then n.name else cls
    let function := functionOf function cls n
    let found ← found.addNode function n
    a.checkInner
    analyzeNodes function cls found ns

def analyzeNodes (function cls : Name) (found : Analysis) : List Node → Except Fault Analysis
  | [] => .ok found
  | n :: ns => do analyzeNodes function cls (← analyzeNode function cls found n) ns

end

def analyze (roots : List Node) : Except Fault Analysis := analyzeNodes "" "" {} roots

end ObjcLowering.Pools
