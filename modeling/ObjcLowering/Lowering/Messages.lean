import ObjcLowering.Ast.Descent
import ObjcLowering.Lowering.Context
import ObjcLowering.Lowering.Lookup

namespace ObjcLowering.Lowering

open Ast

def callWith (function first : String) (rest : List String) : String :=
  function ++ "(" ++ first ++ String.join (rest.map (", " ++ ·)) ++ ")"

def resultType (n : Node) : Except Fault SourceType := do
  (SourceType.mk (← n.qualTypeOr "void")).checked

def resultCast (n : Node) (own : String) : Except Fault String := do
  let type ← resultType n
  return if type.isObject && type.cType != own then "(" ++ type.cType ++ ")" else ""

def pointerTo (cls : Name) : String := s!"struct {cls} *"

def sentSelector (n : Node) : Except Fault String := do
  return cSelector (← n.selector.textOr .unfit)

def noteRelease (n : Node) : Lower Unit := do
  match n.inner with
  | first :: _ =>
    if n.selector == "release" then
      let receiver ← if first.kind = "ImplicitCastExpr" then liftM first.firstChild else pure first
      if receiver.kind = "DeclRefExpr" then
        let name ← receiver.referencedName
        if name.holds && name != "self" then
          if ← (← get).checkTracked name then modify (·.consume name)
  | [] => pure ()

def sendSuper (expr : Node → Lower String) (n : Node) : Lower String := do
  let env ← read
  let parent := (stated? env.cls.superclass).getD env.root
  let cast := if (← resultType n).isObject then "(" ++ pointerTo env.cls.name ++ ")" else ""
  let args ← n.inner.mapM expr
  return cast ++ callWith (s!"{parent}_" ++ (← sentSelector n))
    ("(" ++ pointerTo parent ++ ")self") args

def sendClass (expr : Node → Lower String) (n : Node) : Lower String := do
  let cls := (← n.attrs.classType.get).qual.getD ""
  if n.selector == "initialize" then
    fail (s!"explicit call [{cls} initialize] is not allowed; "
      ++ "+initialize is automatically called before main()")
    return ""
  else
    let m := (← read).module
    let isClassMethod := ((m.class? (← cls.asKey)).map fun c =>
      c.methods.any fun method => method.selector == n.selector && method.isClassMethod).getD false
    let args ← n.inner.mapM expr
    return s!"{cls}_" ++ (if isClassMethod then "cls_" else "") ++ (← sentSelector n)
      ++ "(" ++ Text.join ", " args ++ ")"

def sendInline (expr : Node → Lower String) (n receiver : Node) (accessor : InlineAccessor) :
    Lower String := do
  let cast ← resultCast n (pointerTo accessor.cls)
  let self ← expr receiver
  let args ← n.inner.tail.mapM expr
  return cast
    ++ callWith (inlineName accessor.cls (← sentSelector n) accessor.suffix)
      ("(" ++ pointerTo accessor.cls ++ ")" ++ self) args

def sendKnown (expr : Node → Lower String) (n receiver : Node) (cls : Name) : Lower String := do
  let defining := definingClass (← read).module cls n.selector
  let cast ← resultCast n (pointerTo defining)
  let self ← expr receiver
  let args ← n.inner.tail.mapM expr
  return cast
    ++ callWith (s!"{defining}_" ++ (← sentSelector n))
      ((if defining = cls then "" else "(" ++ pointerTo defining ++ ")") ++ self) args

/-- A message through the table of its selector. The receiver is evaluated into a temporary, because
the look-up names it twice. -/
def sendTable (expr : Node → Lower String) (n : Node) (receiver : Option Node) : Lower String := do
  let r ← root
  let cast ← resultCast n (pointerTo r)
  let self ← match receiver with
    | some receiver => do
      let value ← expr receiver
      let name := "_oz_recv" ++ toString (← freshTemp)
      addPending name (pointerTo r ++ name ++ " = (" ++ pointerTo r ++ ")" ++ value ++ ";")
      pure name
    | none => pure ""
  let args ← n.inner.tail.mapM expr
  return cast ++ callWith ("OZ_PROTOCOL_SEND_" ++ (← sentSelector n)) self args

def sendDirect (expr : Node → Lower String) (n : Node) (receiver : Option Node) : Lower String := do
  let env ← read
  let cls ← match receiver with
    | some receiver => liftM (receiverClass env.module env.cls receiver)
    | none => pure env.cls.name
  let defining := definingClass env.module cls n.selector
  let isUnanswered := ((env.module.class? cls).map fun c => (c.method? n.selector).isNone).getD false
  if defining = cls && isUnanswered then
    warn s!"warning: method '{n.selector}' not found on class '{cls}' or its superclasses"
  let self ← match receiver with
    | some receiver => do
      let value ← expr receiver
      pure ((if defining = cls then "" else "(" ++ pointerTo defining ++ ")") ++ value)
    | none => pure ""
  let args ← n.inner.tail.mapM expr
  return callWith (s!"{defining}_" ++ (← sentSelector n)) self args

def knownReceiver (m : Module) (receiver : Option Node) : Except Fault (Option (Node × Name)) :=
  match receiver with
  | some r => do return (← concreteClass? m r).map fun cls => (r, cls)
  | none => .ok none

def sendInstance (expr : Node → Lower String) (n : Node) : Lower String := do
  let m := (← read).module
  let receiver := n.inner.head?.filter fun r => !r.isNull
  let known ← knownReceiver m receiver
  match known.bind fun (r, cls) => (inlineAccessor? cls n.selector).map fun a => (r, a) with
  | some (r, accessor) => sendInline expr n r accessor
  | none =>
    match dispatchOf m n.selector, known with
    | .table, some (r, cls) => sendKnown expr n r cls
    | .table, none => sendTable expr n receiver
    | .direct, _ => sendDirect expr n receiver

def lowerMessage (expr : Node → Lower String) (n : Node) : Lower String := do
  discard (sentSelector n : Except Fault String)
  discard (n.children : Except Fault (List Node))
  noteRelease n
  let kind ← n.receiverKind.textOr .unfit
  if Text.begins "super" kind then sendSuper expr n
  else if kind = "class" then sendClass expr n
  else sendInstance expr n

end ObjcLowering.Lowering
