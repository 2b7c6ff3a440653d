import ObjcLowering.Ast.Decode
import ObjcLowering.CompileDatabase
import ObjcLowering.DispatchTables.Report
import ObjcLowering.Pools.Definitions
import ObjcLowering.Program.CommandLine
import ObjcLowering.Program.Run
import ObjcLowering.RetainCycles.Report
import ObjcLowering.Source.TreeJson
import ObjcLowering.TestMain

namespace ObjcLowering.Main

open Program

def readText? (path : String) : IO (Option String) := do
  try return some (← IO.FS.readFile path) catch _ => return none

def readJson? (path : String) : IO (Option Json) := do
  return (← readText? path).bind fun text => (Json.ofText text).toOption

def orFail {α : Type} : Except Fault α → IO α
  | .ok a => return a
  | .error f => throw (IO.userError f.message)

def readTrees (paths : List String) : IO (List Ast.Node) :=
  paths.mapM fun path => do
    match ← readJson? path with
    | some j => return Ast.Node.ofJson j
    | none => throw (IO.userError (path ++ ": no syntax tree"))

partial def load (includeDirs : List Path) (fs : Files) : List Path → IO Files
  | [] => return fs
  | path :: paths => do
    match path.normalize? with
    | none => load includeDirs fs paths
    | some path =>
      if fs.entries.any fun (known, _) => known = path then load includeDirs fs paths
      else
        match ← readText? path.toText with
        | none => load includeDirs fs paths
        | some text =>
          let tree := ((← readJson? (treePath path)).map Tree.listOfJson).getD []
          load includeDirs (fs.add path text tree) (neighbours includeDirs path text ++ paths)

def loadAll (includeDirs paths : List String) : IO Files :=
  load (includeDirs.map Path.ofText) {} (paths.map Path.ofText)

def write (path text : String) : IO Unit := do
  IO.FS.createDirAll (Path.ofText path).parent.toText
  IO.FS.writeFile path text

def withParent (path : String) (fs : Files) : Files := fs.addDirectory (Path.ofText path).parent

def execute : Command → IO UInt32
  | .lower inputs options => do
    let trees ← readTrees inputs
    let mains ← orFail (trees.mapM Declarations.mainFile?)
    let fs ← loadAll [] (options.sources ++ mains.filterMap fun file => file.bind Json.text?)
    let options := { options with isTerminal := ← (← IO.getStderr).isTty }
    let out ← orFail (run (withParent options.manifest fs) options trees)
    out.written.forM fun path => do write path (← orFail (out.files.read (.ofText path)))
    if let some text := out.manifest then write options.manifest text
    IO.eprint out.messages
    return out.exit.toUInt32
  | .pools inputs pointer output => do
    let pools ← orFail (Pools.ofTrees (← readTrees inputs) pointer)
    write output (Pools.definitions pools)
    IO.eprint (Pools.summary pools)
    return 0
  | .cycles sources includeDirs => do
    let fs ← loadAll includeDirs sources
    let found ← orFail (RetainCycles.check fs (includeDirs.map Path.ofText) (sources.map Path.ofText))
    IO.eprint found.text
    return (RetainCycles.exitCode found.cycles).toNat.toUInt32
  | .tables sources pools output init => do
    let fs ← loadAll [] sources
    let out ← orFail (DispatchTables.generate fs sources pools init.isSome)
    write output out.header
    IO.eprint out.log
    match init, out.init with
    | some path, some text => write path text
    | _, _ => pure ()
    return 0
  | .merge base added => do
    let fs ← loadAll [] [base, added]
    let merged ← orFail
      (CompileDatabase.mergeFiles (withParent base fs) (.ofText base) (.ofText added))
    if let some text := merged.find? (.ofText base) then write base text
    return 0
  | .tests sources output => do
    let suite ← orFail (TestMain.Suite.ofFiles (← loadAll [] sources) (sources.map Path.ofText))
    match suite.output with
    | .ok text => write output text; return 0
    | .error message => IO.eprint message; return 1

end ObjcLowering.Main

def main (words : List String) : IO UInt32 := do
  match ObjcLowering.Program.Command.ofWords words with
  | .ok command => ObjcLowering.Main.execute command
  | .error f => IO.eprintln f.message; return 2
