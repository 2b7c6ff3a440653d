import ObjcLowering.Hierarchy

namespace ObjcLowering.Methods

open Ast

def kindWord (isClassMethod : Bool) : String := if isClassMethod then "class" else "instance"

def duplicatesIn (cls : Name) : (seen : List (Bool × String)) → List Method → List String
  | _, [] => []
  | seen, m :: ms =>
    let key := (m.isClassMethod, m.selector.plain)
    if seen.contains key then
      s!"duplicate {kindWord m.isClassMethod} method '{m.selector}' in '{cls}'" :: duplicatesIn cls seen ms
    else duplicatesIn cls (key :: seen) ms

def checkDuplicates (m : Module) : Module :=
  { m with errors := m.errors ++ m.classes.values.flatMap fun cls => duplicatesIn cls.name [] cls.methods }

def alwaysTable : List Name := ["dealloc", "init", "isEqual:", "cDescription:maxLength:"]

def implementers (m : Module) (selector : Name) : Nat :=
  (m.classes.values.filter fun cls =>
    cls.methods.any fun x => !x.isClassMethod && x.selector == selector).length

def usesTable (m : Module) (selector : Name) : Bool :=
  (m.protocols.values.any fun p => p.methods.any fun x => x.selector == selector)
    || alwaysTable.contains selector || implementers m selector > 1

def classifyMethod (m : Module) (method : Method) : Method :=
  if !method.isClassMethod && usesTable m method.selector then { method with dispatch := .table }
  else method

def classify (m : Module) : Except Fault Module := do
  m.protocols.values.forM fun p => p.methods.forM fun x => discard x.selector.asKey
  m.classes.values.forM fun c =>
    (c.methods.filter fun x => !x.isClassMethod).forM fun x => discard x.selector.asKey
  return { m with classes := m.classes.mapValues fun cls =>
      { cls with methods := cls.methods.map (classifyMethod m) } }

def missingMethods (m : Module) (cls : ClassDecl) : List String :=
  let selectors := (m.chain cls).flatMap fun c => c.methods.map (·.selector)
  cls.protocols.flatMap fun name =>
    match m.protocols.find? name with
    | none => []
    | some p =>
      (p.methods.filter fun x => !selectors.contains x.selector).map fun x =>
        s!"class '{cls.name}' conforms to protocol '{name}' but does not implement "
          ++ s!"required method '{x.selector}'"

def checkConformance (m : Module) : Except Fault Module := do
  m.classes.values.forM fun cls => cls.protocols.forM fun name => discard name.asKey
  return { m with errors := m.errors ++ m.classes.values.flatMap (missingMethods m) }

def asksForClass (n : Node) : Bool :=
  n.preorder.any fun x =>
    x.kind == "ObjCMessageExpr" && x.selector == "class" && x.receiverKind == "class"

def guardWarning (cls : Name) : String :=
  s!"warning: +initialize guard '[{cls} class]' is unnecessary; "
    ++ "Objective-Z calls +initialize exactly once per class via SYS_INIT"

def addInitializer (m : Module) (cls : ClassDecl) : Module :=
  match cls.methods.find? fun (x : Method) => x.isClassMethod && x.selector == "initialize" with
  | none => m
  | some method =>
    let m := if (method.body.map asksForClass).getD false then m.warn (guardWarning cls.name) else m
    { m with initializers := m.initializers ++ [cls.name] }

def collectInitializers (m : Module) : Module := (Hierarchy.classesById m).foldl addInitializer m

end ObjcLowering.Methods
