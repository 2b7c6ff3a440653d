import ObjcLowering.Lowering.Functions
import ObjcLowering.Patched.Includes
import ObjcLowering.Patched.Nodes

namespace ObjcLowering.Patched

open Lowering

structure Input where
  files : Files
  path : Path
  text : String
  module : Module
  classes : List ClassDecl
  root : String
  hasItemPool : Bool := false
  owning : List (Name × Name) := []
  deriving Inhabited

structure Gathered where
  values : Table String String := {}
  statics : List Name := []
  literals : Table String String := {}
  strings : List String := []
  diagnostics : List String := []
  errors : List String := []
  deriving Inhabited

abbrev Gather := ReaderT Input (StateT Gathered (Except Fault))

def note (text : String) : Gather Unit :=
  modify fun g => { g with diagnostics := g.diagnostics ++ [text] }

def setValue (key value : String) : Gather Unit :=
  modify fun g => { g with values := g.values.set key value }

def lowering {α : Type} (cls : ClassDecl) (strings : List String) (run : Lower α) :
    Gather (α × State) := do
  let input ← read
  let g ← get
  let env : Env :=
    { cls
      module := input.module
      root := input.root
      hasItemPool := input.hasItemPool
      source := some input.text
      owning := input.owning }
  let (a, s) ← liftM (run.run env { literals := g.literals, strings })
  set { g with
    literals := s.literals
    diagnostics := g.diagnostics ++ s.diagnostics
    errors := g.errors ++ s.errors }
  return (a, s)

structure Definition where
  key : String
  selector : String
  isClassMethod : Bool
  deriving DecidableEq, Inhabited, Repr

def definitionOf (source : String) (t : Tree) : Except Fault Definition :=
  return { key := codeKey source t
           selector := ← selectorOf source t
           isClassMethod := isClassMethod t }

def isDefinedBy (m : Method) (d : Definition) : Bool :=
  m.selector == .text d.selector && m.isClassMethod == d.isClassMethod

def definitionText (d : Definition) : Lower String := do
  let env ← read
  match env.cls.methods.find? fun m => isDefinedBy m d with
  | none => return ""
  | some m =>
    if isBuiltIn env m then return ""
    else if m.selector = "dealloc" then writtenDealloc m
    else methodText m

def isWrittenDealloc (env : Env) (d : Definition) : Bool :=
  d.selector == "dealloc" && env.cls.methods.any fun m => isDefinedBy m d

def isMade (env : Env) (ds : List Definition) (m : Method) : Bool :=
  !ds.any (isDefinedBy m) && !isBuiltIn env m && m.selector != "dealloc"
    && (m.synthesized.isSome || m.body.isSome)

/-- The functions of an implementation: those of its definitions by key, those of other methods, and
a `dealloc` that is made. -/
structure Implementation where
  definitions : List (String × String)
  others : String
  dealloc : String
  deriving Inhabited, Repr

def lowerImplementation (source : String) (ts : List Tree) : Lower Implementation := do
  let env ← read
  let definitions ← ts.mapM fun t => do
    let d ← liftM (definitionOf source t)
    return (d, ← definitionText d)
  let ds := definitions.map (·.1)
  let others ← (env.cls.methods.filter (isMade env ds)).mapM fun m => return (← methodText m) ++ "\n"
  let dealloc ←
    if ds.any (isWrittenDealloc env) || env.cls.name = "OZSpinLock" then pure ""
    else do pure ((← madeDealloc? env).getD "")
  return { definitions := definitions.map fun (d, text) => (d.key, text)
           others := String.join others
           dealloc }

/-- What stands before the methods: static variables that are still to be defined, and the functions
of the root class. -/
def implementationHead (input : Input) (statics : List Name) (cls : ClassDecl) :
    Except Fault String := do
  let own := cls.statics.filter fun v => statics.contains v.name
  own.forM fun v => discard v.type.checked
  return String.join (own.map fun v => staticText v ++ "\n")
    ++ (if cls.name = input.root then countingText input.root ++ introspectionText input.root else "")

/-- Sets the values for an implementation of a class. A made `dealloc` follows the last definition,
or stands at the end of the preamble when there is none. -/
def gatherClass (t : Tree) (cls : ClassDecl) : Gather Unit := do
  let input ← read
  let head ← liftM (implementationHead input (← get).statics cls)
  let (impl, s) ← lowering cls [] (lowerImplementation input.text (t.children.filterMap methodOf?))
  impl.definitions.forM fun (key, text) => setValue key text
  match impl.definitions.getLast? with
  | some (last, _) =>
    unless impl.dealloc = "" do
      let text := ((← get).values.find? last).getD ""
      setValue last (text ++ "\n" ++ impl.dealloc)
  | none => pure ()
  setValue (preambleKey input.text t)
    (head ++ String.join (s.strings.map (· ++ "\n")) ++ String.join (s.blocks.map (· ++ "\n\n"))
      ++ impl.others ++ (if impl.definitions.isEmpty then impl.dealloc else ""))

def gatherImplementation (t : Tree) : Gather Unit := do
  let input ← read
  let name ← liftM (declaredName? input.text t)
  match name.bind fun name => input.classes.reverse.find? fun c => c.name == .text name with
  | some cls => gatherClass t cls
  | none =>
    if let some name := name then
      note s!"warning: @implementation {name} not found in module"
    setValue (preambleKey input.text t) ""

def function? (input : Input) (name : String) : Option Function :=
  ((input.classes.flatMap (·.functions)) ++ input.module.functions).reverse.find? fun f =>
    f.name == .text name

def loweredFunction (f : Function) : Gather String := do
  let (text, s) ← lowering { name := "__patched__" } (← get).strings (functionText f)
  modify fun g => { g with strings := s.strings }
  return String.join (s.blocks.map (· ++ "\n\n")) ++ text

def gatherFunction (t : Tree) (text : String) : Gather Unit := do
  let input ← read
  let key := codeKey input.text t
  let name ← liftM (functionName? input.text t)
  match (name.filter (· != "")).bind fun name => (function? input name).filter (·.body.isSome) with
  | some f =>
    if f.usesObjects then
      setValue key (← loweredFunction f)
      note s!"info: function '{f.name}' transpiled (contains ObjC)"
    else
      setValue key text
      note s!"info: function '{f.name}' preserved verbatim (pure C)"
  | none => setValue key text

def static? (input : Input) (name : String) : Option StaticVar :=
  (input.classes.flatMap (·.statics)).find? fun v => v.name == .text name

def settle (name : Name) : Gather Unit :=
  modify fun g => { g with statics := g.statics.filter (· != name) }

def gatherDeclaration (t : Tree) (text : String) : Gather Unit := do
  let input ← read
  let key := codeKey input.text t
  if isPrototype t then setValue key ""
  else
    let name ← liftM (variableName? input.text t)
    let statics := (← get).statics
    match (name.filter fun n => n != "" && statics.contains (.text n)).bind (static? input) with
    | some v =>
      discard (v.type.checked : Except Fault SourceType)
      settle v.name
      if v.type.isObject then
        setValue key (staticText v)
        note s!"info: static '{v.name}' transpiled (ObjC type)"
      else
        setValue key text
        note s!"info: static '{v.name}' preserved verbatim (pure C)"
    | none => setValue key text

def gatherTop (t : Tree) : Gather Unit := do
  let input ← read
  let text ← liftM (t.text input.text)
  if implementationTypes.contains t.type then gatherImplementation t
  else if t.type = "preproc_include" then
    setValue (codeKey input.text t) (Text.trim (includeText input.files text (some input.path.parent)))
  else if t.type = "function_definition" then gatherFunction t text
  else if t.type = "declaration" then gatherDeclaration t text
  else pure ()

/-- The values of a file's placeholders. The static variables to define are those of the classes and
some further ones. -/
def gather (input : Input) (statics : List Name) : Except Fault Gathered := do
  let functions := input.classes.flatMap (·.functions) ++ input.module.functions
  functions.forM fun f => discard f.name.asKey
  let own := input.classes.flatMap fun c => c.statics.map (·.name)
  let statics ← (statics ++ own).mapM Json.asKey
  let statics := distinct statics
  let root := input.files.treeOf input.text
  let (_, g) ← ((root.children.forM gatherTop).run input).run { statics }
  return g

end ObjcLowering.Patched
