import ObjcLowering.Module.Basic
import ObjcLowering.Text.Case

namespace ObjcLowering.Properties

def getterOf (p : Property) : Name := (stated? p.getter).getD p.name

def setterOf (p : Property) : Except Fault Name := do
  match stated? p.setter with
  | some setter => return setter
  | none =>
    match (← p.name.textOr .wrongValue).toList with
    | c :: cs => return .text ("set" ++ String.ofList (Text.capital c ++ cs) ++ ":")
    | [] => throw .outOfRange

def bareIvarWarning (cls name : Name) : String :=
  s!"warning: '@synthesize {name};' uses bare ivar name '{name}' in class '{cls}'; "
    ++ s!"prefer '@synthesize {name} = _{name};'"

/-- The variable of a property: the one it is linked with, a variable of its own name, or a new one
after a low line. -/
def ivarOf (cls : ClassDecl) (p : Property) : Except Fault (Name × List String) := do
  match p.ivar with
  | some ivar => return (ivar, [])
  | none =>
    let name ← p.name.asKey
    if cls.ivars.any fun v => v.name == name then return (name, [bareIvarWarning cls.name name])
    else return (.text s!"_{name}", [])

def getter (p : Property) : Method :=
  { selector := getterOf p, returnType := p.type, synthesized := some p }

def setter (p : Property) (selector : Name) : Method :=
  { selector, returnType := ⟨"void"⟩, params := [{ name := p.name, type := p.type }],
    synthesized := some p }

def addMissing (methods : List Method) (method : Method) : Except Fault (List Method) := do
  let selector ← method.selector.asKey
  return if methods.any fun m => m.selector == selector then methods else methods ++ [method]

def synthesizeProperty (acc : ClassDecl × List String) (p : Property) :
    Except Fault (ClassDecl × List String) := do
  let (cls, warnings) := acc
  let (ivar, extra) ← ivarOf cls p
  let p := { p with ivar := some ivar }
  let methods ← addMissing cls.methods (getter p)
  let methods ←
    if p.isReadonly.holds then pure methods
    else addMissing methods (setter p (← setterOf p))
  return ({ cls with methods, properties := cls.properties ++ [p] }, warnings ++ extra)

def synthesizeClass (cls : ClassDecl) : Except Fault (ClassDecl × List String) := do
  cls.methods.forM fun m => discard m.selector.asKey
  cls.ivars.forM fun v => discard v.name.asKey
  cls.properties.foldlM synthesizeProperty ({ cls with properties := [] }, [])

def numberFrom : (next : Nat) → List Property → List Property
  | _, [] => []
  | next, p :: ps =>
    if p.serial.isSome then p :: numberFrom next ps
    else { p with serial := some next } :: numberFrom (next + 1) ps

def numberClasses : (next : Nat) → List (Name × ClassDecl) → List (Name × ClassDecl)
  | _, [] => []
  | next, (name, cls) :: rest =>
    (name, { cls with properties := numberFrom next cls.properties })
      :: numberClasses (next + cls.properties.length) rest

def number (m : Module) : Module :=
  { m with classes := ⟨numberClasses m.nextSerial m.classes.entries⟩ }

def synthesize (m : Module) : Except Fault Module := do
  let m := number m
  let done ← m.classes.entries.mapM fun (name, cls) => do
    let (cls, warnings) ← synthesizeClass cls
    return ((name, cls), warnings)
  return { m with
    classes := ⟨done.map (·.1)⟩
    diagnostics := m.diagnostics ++ done.flatMap (·.2) }

end ObjcLowering.Properties
