import ObjcLowering.Module.Basic

namespace ObjcLowering.Lowering

open Ast

def cSelector (selector : String) : String := Text.replace ":" "_" selector

def basePath (m : Module) (cls : ClassDecl) : String :=
  Text.copies ((m.chain cls).length - 1) "base."

def rootFields (m : Module) (cls : Name) : String :=
  match m.class? cls with
  | some c => "obj->" ++ basePath m c
  | none => "obj->"

def propertyLock (m : Module) (cls : ClassDecl) : String :=
  "self->" ++ basePath m cls ++ "_oz_prop_lock"

def hasIvar (cls : ClassDecl) (ivar : Name) : Bool := cls.ivars.any fun v => v.name == ivar

def ivarPath (m : Module) (cls : ClassDecl) (ivar : Name) : String :=
  match (m.chain cls).findIdx? fun c => hasIvar c ivar with
  | some steps => Text.copies steps "base."
  | none => ""

def ivarOwner? (m : Module) (ivar : Name) : Option (ClassDecl × Ivar) :=
  m.classes.values.findSome? fun cls =>
    (cls.ivars.find? fun v => v.name == ivar).map fun v => (cls, v)

def isSubclass (m : Module) (cls parent : Name) : Bool :=
  match m.class? cls with
  | some c => (m.chain c).any fun a => stated? a.superclass == some parent
  | none => false

def mayAccess (m : Module) (owner : ClassDecl) (ivar : Ivar) (accessor : Name) : Bool :=
  if ivar.access = "public" then true
  else if ivar.access = "private" then accessor == owner.name
  else accessor == owner.name || isSubclass m accessor owner.name

def rootSelectors : List Name :=
  ["isEqual:", "cDescription:maxLength:", "retain", "release", "retainCount"]

def answeringClass? (m : Module) (selector : Name) : (fuel : Nat) → (name : Name) → Option Name
  | 0, _ => none
  | fuel + 1, name =>
    match m.class? name with
    | none => none
    | some cls =>
      if (cls.method? selector).isSome then some name
      else
        match stated? cls.superclass with
        | some up => answeringClass? m selector fuel up
        | none => if rootSelectors.contains selector then some name else none

def definingClass (m : Module) (cls selector : Name) : Name :=
  (answeringClass? m selector (m.classes.entries.length + 1) cls).getD cls

def hasDealloc (m : Module) (cls : ClassDecl) : Bool :=
  cls.ivars.any (·.type.isStrongObject) || !m.isRoot cls

def implementingClass? (m : Module) (cls : ClassDecl) (selector : Name) : Option ClassDecl :=
  if selector = "dealloc" && hasDealloc m cls then some cls
  else (m.chain cls).find? fun c => (c.method? selector).isSome

def dispatchOf (m : Module) (selector : Name) : Dispatch :=
  ((m.classes.values.findSome? fun cls => cls.method? selector).map (·.dispatch)).getD .direct

def namedClass? (t : SourceType) : Option Name :=
  if t.isObject then
    let name := Text.trimRightBy (fun c => c = ' ' || c = '*') t.stripped
    if name = "" || name = "id" || name = "instancetype" then none else some name
  else none

def classOfSend? (m : Module) (n : Node) : Except Fault (Option Name) := do
  let e := n.unwrap ["ImplicitCastExpr", "ParenExpr"]
  if e.kind != "ObjCMessageExpr" then return none
  let cls ← (stated? (← e.attrs.classType.get).qual).mapM Json.asKey
  return cls.filter m.classes.has

def typeOf (n : Node) : Except Fault SourceType := do
  (SourceType.mk (← n.qualType)).checked

def concreteClass? (m : Module) (n : Node) : Except Fault (Option Name) := do
  match (namedClass? (← typeOf n)).filter m.classes.has with
  | some cls => return some cls
  | none => classOfSend? m n

def receiverClass (m : Module) (cls : ClassDecl) (n : Node) : Except Fault Name := do
  match namedClass? (← typeOf n) with
  | some name => return name
  | none => return (← classOfSend? m n).getD cls.name

structure InlineAccessor where
  cls : String
  selector : String
  returnType : String
  params : List (String × String)
  body : List String
  suffix : String := "fast_"
  deriving Inhabited, Repr

def inlineAccessors : List InlineAccessor :=
  [{ cls := "OZArray"
     selector := "objectAtIndex:"
     returnType := "struct OZObject *"
     params := [("unsigned int", "index")]
     body := ["if (index >= self->_count) \x7b", "\treturn (struct OZObject *)0;", "\x7d",
       "return self->_items[index];"] },
   { cls := "OZArray"
     selector := "count"
     returnType := "unsigned int"
     params := []
     body := ["return self->_count;"] },
   { cls := "OZString"
     selector := "cString"
     returnType := "const char *"
     params := []
     body := ["return self->_data;"] },
   { cls := "OZString"
     selector := "length"
     returnType := "unsigned int"
     params := []
     body := ["return self->_length;"] },
   { cls := "OZDictionary"
     selector := "count"
     returnType := "unsigned int"
     params := []
     body := ["return self->_count;"] }]

def inlineAccessor? (cls selector : Name) : Option InlineAccessor :=
  inlineAccessors.find? fun a => .text a.cls == cls && .text a.selector == selector

def inlineName (cls selector suffix : String) : String :=
  cls ++ "_" ++ selector ++ (if Text.ends "_" selector then "" else "_") ++ suffix

def paramList (params : List Param) : String :=
  if params.isEmpty then "void" else Text.join ", " (params.map fun p => p.type.declare p.name)

def checkParams (params : List Param) : Except Fault Unit :=
  params.forM fun p => discard p.type.checked

def checkMethod (m : Method) : Except Fault Unit := do
  discard m.returnType.checked
  discard (m.selector.textOr .unfit)
  checkParams m.params

def checkFunction (f : Function) : Except Fault Unit := do
  discard f.returnType.checked
  checkParams f.params

def returnsOwnClass (m : Method) : Bool :=
  let raw := Text.trim m.returnType.spelling
  let selector := m.selector.plain
  raw = "instancetype" || (raw = "id" && (selector = "init" || Text.begins "init:" selector
    || Text.begins "initWith" selector))

def methodName (cls : ClassDecl) (m : Method) : String :=
  s!"{cls.name}_" ++ (if m.isClassMethod then "cls_" else "") ++ cSelector m.selector.plain

def methodSignature (cls : ClassDecl) (m : Method) : String :=
  let result := if returnsOwnClass m then s!"struct {cls.name} *" else m.returnType.cType
  let params :=
    if m.isClassMethod then paramList m.params
    else
      Text.join ", " (s!"struct {cls.name} *self"
        :: m.params.map fun p => p.type.declare p.name)
  result ++ " " ++ methodName cls m ++ "(" ++ params ++ ")"

def functionSignature (f : Function) : String :=
  (if f.isStatic then "static " else "") ++ f.returnType.cType ++ " " ++ f.name.plain
    ++ "(" ++ paramList f.params ++ ")"

end ObjcLowering.Lowering
