import ObjcLowering.Module.Basic

namespace ObjcLowering.Lowering

open Ast

def objectLiterals : List String :=
  ["ObjCBoxedExpr", "ObjCArrayLiteral", "ObjCDictionaryLiteral", "ObjCStringLiteral"]

def transparentKinds : List String :=
  ["ImplicitCastExpr", "ExprWithCleanups", "ParenExpr", "CStyleCastExpr", "ExplicitCastExpr"]

def isFreshAlloc (n : Node) : Bool := objectLiterals.contains n.belowCasts.kind

def isMakingSelector (selector : String) : Bool :=
  ["alloc", "new", "copy", "mutableCopy"].contains selector || Text.begins "init" selector

def isMakingSend (n : Node) : Except Fault Bool := do
  return isMakingSelector (← n.selector.textOr .unfit) || n.receiverKind == "class"

def isOwningExpr (n : Node) : Except Fault Bool :=
  let e := n.unwrap transparentKinds
  if objectLiterals.contains e.kind then .ok true
  else if e.kind = "ObjCMessageExpr" then isMakingSend e
  else .ok false

def pointeeWord (type : Json) : Except Fault String := do
  if !(← type.mentions "*") then return ""
  let front := Text.before "*" (← type.textOr .unfit)
  let back := (Text.Chars.trim front.toList).reverse
  if back.isEmpty then throw .outOfRange
  else return .ofList (back.takeWhile fun c => !Text.isBlank c).reverse

def sendsToOwning (owning : List (Name × Name)) (n : Node) : Except Fault Bool :=
  match n.inner with
  | receiver :: _ => do
    let cls ← pointeeWord (← receiver.qualType)
    return cls != "" && owning.contains (.text cls, n.selector)
  | [] => .ok false

def isBorrowed (owning : List (Name × Name)) (n : Node) : Except Fault Bool := do
  let e := n.unwrap transparentKinds
  if e.kind = "ObjCMessageExpr" then
    if ← isMakingSend e then return false
    else if e.receiverKind == "instance" then return !(← sendsToOwning owning e)
    else return true
  else if e.kind = "DeclRefExpr" then return (← (SourceType.mk (← e.qualType)).checked).isObject
  else return false

def isBridgeCast (n : Node) : Bool :=
  (n.unwrap ["ImplicitCastExpr", "ExprWithCleanups", "ParenExpr"]).kind = "ObjCBridgedCastExpr"

def returnedVar? (n : Node) : Except Fault (Option Name) := do
  let e := n.unwrap ["ImplicitCastExpr", "CStyleCastExpr", "ParenExpr"]
  if e.kind != "DeclRefExpr" then return none
  return (← e.attrs.referencedDecl.get).name.filter (· != .null)

def isSuperDealloc (n : Node) : Except Fault Bool := do
  if n.kind = "ObjCMessageExpr" && n.selector == "dealloc" then
    return Text.begins "super" (← n.receiverKind.textOr .unfit)
  return false

def returnedExpr? (n : Node) : Option Node :=
  n.inner.head?.map fun e => if e.kind = "ExprWithCleanups" then e.inner.headD e else e

def returnsOwnedAt (n : Node) : Except Fault Bool :=
  match returnedExpr? n with
  | some e => isOwningExpr e
  | none => .ok false

def returnsOwned (body : Node) : Except Fault Bool :=
  let returns := body.preorder.filter fun n => n.kind = "ReturnStmt"
  if returns.isEmpty then .ok false else returns.allM returnsOwnedAt

def isOwningMethod (m : Method) : Except Fault Bool := do
  if !(← m.returnType.checked).isObject then return false
  match m.body with
  | none => return false
  | some body =>
    if isMakingSelector (← m.selector.textOr .unfit) then return false
    returnsOwned body

def owningMethods (m : Module) : Except Fault (List (Name × Name)) := do
  let pairs ← m.classes.values.mapM fun cls => do
    return (← cls.methods.filterM isOwningMethod).map fun method => (cls.name, method.selector)
  return distinct pairs.flatten

def objectParams (params : List Param) : List Param := params.filter (·.type.isObject)

def strongIvars (cls : ClassDecl) : List Ivar := cls.ivars.filter (·.type.isStrongObject)

def checkIvars (cls : ClassDecl) : Except Fault Unit :=
  cls.ivars.forM fun v => discard v.type.checked

end ObjcLowering.Lowering
