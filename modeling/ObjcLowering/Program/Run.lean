import ObjcLowering.Module.Complete
import ObjcLowering.Module.Merge
import ObjcLowering.Module.OfTree
import ObjcLowering.Program.Emission
import ObjcLowering.TypeArguments.OfFile

namespace ObjcLowering.Program

open Ast

structure Outcome where
  exit : Nat
  messages : String := ""
  files : Files
  written : List String := []
  manifest : Option String := none
  deriving Inhabited, Repr

def withSource (fs : Files) (source : String) (m : Module) : Except Fault Module := do
  let stem := sourceStem source
  let path := Path.ofText source
  let isStub ← Declarations.isStubSource source
  let found := if fs.isFile path then some path else none
  let own := if isStub then m.source else found.or m.source
  let kept := if isStub then found else own
  return { m with
    stem
    source := own
    sources := match kept with
      | some p => m.sources.set stem p
      | none => m.sources
    classes := m.classes.mapValues fun c =>
      { c with
        isFoundation := c.isFoundation || isStub
        stem := if c.hasBody && .text stem != c.name then stem else c.stem } }

def collectAll (fs : Files) : (sources : List String) → List Node → Except Fault (List Module)
  | _, [] => .ok []
  | [], tree :: trees => do
    let m ← Module.ofTree fs tree
    return m :: (← collectAll fs [] trees)
  | source :: sources, tree :: trees => do
    let m ← Module.ofTree fs tree
    return (← withSource fs source m) :: (← collectAll fs sources trees)

/-- The whole program, not yet complete: all modules together, with the type arguments that their
sources give. -/
def collect (fs : Files) (options : Options) (trees : List Node) : Except Fault Module := do
  let modules := (← collectAll fs options.sources trees).map Module.associate
  let m := match modules with
    | [m] => m
    | _ => Module.merge modules
  let generics ← m.sources.values.foldlM (fun (t : Table String String) path => do
    return t.merge (← TypeArguments.ofFile fs path)) m.generics
  return { m with generics }

def errorLines (errors : List String) : List String := errors.map ("oz_transpile: error: " ++ ·)

def warningLines (warnings : List String) : List String :=
  warnings.map ("oz_transpile: warning: " ++ ·)

def baseName (path : String) : String := (Text.splitBy '/' path).getLastD ""

def clearLine : String := "\r\x1b[K"

def progress (options : Options) (paths : List String) : String :=
  let total := toString paths.length
  let steps := paths.zipIdx.map fun (path, i) =>
    "oz_transpile: [" ++ toString (i + 1) ++ "/" ++ total ++ "] " ++ baseName path
  let summary := "oz_transpile: " ++ total ++ " files generated in " ++ options.outdir
  if options.isTerminal then
    String.join (steps.map (clearLine ++ ·)) ++ clearLine ++ summary ++ "\n"
  else (if options.isVerbose then Output.unlines steps else "") ++ summary ++ "\n"

def manifestText (options : Options) (written : List String) : Option String :=
  if options.manifest = "" then none else some (Output.unlines written)

def makeDirectories (options : Options) (files : Files) : Except Fault Files := do
  (← files.makeDirectory (.ofText options.outdir)).makeDirectory (.ofText options.foundationDir)

def writeManifest (options : Options) (files : Files) (list : Option String) : Except Fault Files :=
  match list with
  | none => .ok files
  | some text => files.writeTo options.manifest text

def generate (fs : Files) (options : Options) (m : Module) (said : List String) :
    Except Fault Outcome := do
  let sizes ← poolSizes options.poolSizes
  let fs ← makeDirectories options fs
  let e ← (← prepare options sizes m).emit fs
  let failed (lines : List String) : Outcome :=
    { exit := 1, messages := Output.unlines (said ++ lines), files := e.files, written := e.written }
  if !e.errors.isEmpty then return failed (errorLines e.errors)
  else if options.isStrict && !e.diagnostics.isEmpty then return failed (warningLines e.diagnostics)
  else
    let manifest := manifestText options e.written
    return { exit := 0
             messages := Output.unlines (said ++ warningLines e.diagnostics)
               ++ progress options e.written
             files := ← writeManifest options e.files manifest
             written := e.written
             manifest }

def run (fs : Files) (options : Options) (trees : List Node) : Except Fault Outcome := do
  if trees.isEmpty then throw .badOption
  options.check
  let m ← collect fs options trees
  let failed (said lines : List String) : Outcome :=
    { exit := 1, messages := Output.unlines (said ++ lines), files := fs }
  match m.complete with
  | .error (.inheritanceCycle start again) =>
    return failed [] (errorLines [(Fault.inheritanceCycle start again).message])
  | .error f => throw f
  | .ok m =>
    if !m.errors.isEmpty then return failed [] (errorLines m.errors)
    else
      let said := if options.isVerbose then warningLines m.diagnostics else []
      if options.isStrict && !m.diagnostics.isEmpty then
        return failed said (errorLines m.diagnostics)
      else generate fs options m said

end ObjcLowering.Program
