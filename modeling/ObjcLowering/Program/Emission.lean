import ObjcLowering.Lowering.Demand
import ObjcLowering.Module.LooseItems
import ObjcLowering.Output.ClassHeader
import ObjcLowering.Output.Dispatch
import ObjcLowering.Patched.Source
import ObjcLowering.Program.Options

namespace ObjcLowering.Program

open Lowering Output

structure Emission where
  files : Files
  written : List String := []
  diagnostics : List String := []
  errors : List String := []
  deriving Inhabited, Repr

def Emission.write (e : Emission) (path text : String) : Except Fault Emission := do
  return { e with files := ← e.files.write (.ofText path) text, written := e.written ++ [path] }

def Emission.say (e : Emission) (diagnostics errors : List String) : Emission :=
  { e with diagnostics := e.diagnostics ++ diagnostics, errors := e.errors ++ errors }

structure Plan where
  options : Options
  module : Module
  sizes : Table String Int := {}
  counts : Table Name Int := {}
  itemPool : Int := 0
  owning : List (Name × Name) := []
  deriving Inhabited

def prepare (options : Options) (sizes : Table String Int) (m : Module) : Except Fault Plan := do
  let m := (← m.associateAll.withSpinLock options.rootClass).tagFoundation options.rootClass
  let owning ← owningMethods m
  return { options
           module := m
           sizes
           counts := ← allocCounts m
           itemPool := options.itemPoolSize.getD (itemSlots m)
           owning }

namespace Plan

/-- The size of the pool of a class: what the user asked for, else the number of objects that are
made, but at least one. -/
def poolCount (p : Plan) (cls : Name) : Int :=
  (cls.text?.bind p.sizes.find?).getD (max ((p.counts.find? cls).getD 0) 1)

def hasItemPool (p : Plan) : Bool := p.itemPool > 0

def stemGroups (p : Plan) : Table Name (List ClassDecl) :=
  p.module.classes.values.foldl
    (fun t c => t.set (fileStem c) ((t.find? (fileStem c)).getD [] ++ [c])) {}

def headerInput (p : Plan) : HeaderInput :=
  { module := p.module
    root := p.options.rootClass
    itemPool := p.itemPool
    hasHeap := p.options.hasHeap }

def bodyEnv (p : Plan) (cls : ClassDecl) : Env :=
  { cls
    module := p.module
    root := p.options.rootClass
    hasItemPool := p.hasItemPool
    owning := p.owning }

def addClassSource (p : Plan) (stem : Name) (acc : List String × State) (cls : ClassDecl) :
    Except Fault (List String × State) := do
  let start : State := { acc.2 with strings := [], blocks := [], pending := [], temps := 0, locks := 0
                                    scopes := [], consumed := [], loops := [] }
  let (text, s) ← (classSource stem (p.poolCount cls.name)).run (p.bodyEnv cls) start
  return (acc.1 ++ [text], s)

def plainSource (p : Plan) (stem : Name) (classes : List ClassDecl) :
    Except Fault Patched.Generated := do
  let (texts, s) ← classes.foldlM (p.addClassSource stem) ([], {})
  return { text := Text.join "\n" texts, diagnostics := s.diagnostics, errors := s.errors }

def patchedInput (p : Plan) (files : Files) (path : Path) (text : String)
    (classes : List ClassDecl) : Patched.Input :=
  { files
    path
    text
    module := p.module
    classes
    root := p.options.rootClass
    hasItemPool := p.hasItemPool
    owning := p.owning }

def keptSource? (p : Plan) (files : Files) (stem : Name) : Option (Path × String) := do
  let path ← stem.text?.bind p.module.sources.find?
  return (path, ← files.find? path)

def writeGroup (p : Plan) (e : Emission) (group : Name × List ClassDecl) :
    Except Fault Emission := do
  let (stem, classes) := group
  let isFoundation := classes.all (·.isFoundation)
  let dir := if isFoundation then p.options.foundationDir else p.options.outdir
  let headers ← classes.mapM (classHeader p.headerInput)
  let e ← e.write (inDirectory dir (headerName stem)) (Text.join "\n" headers)
  let kept := if isFoundation then none else p.keptSource? e.files stem
  let source ← match kept with
    | some (path, text) =>
      Patched.classFile (p.patchedInput e.files path text classes) stem p.poolCount
    | none => p.plainSource stem classes
  let e ← e.write (inDirectory dir (sourceName stem)) source.text
  return e.say source.diagnostics source.errors

def orphanFunction (p : Plan) (acc : List String × Emission) (f : Function) :
    Except Fault (List String × Emission) := do
  let env := { p.bodyEnv { name := "__orphan__" } with hasItemPool := false }
  let (text, s) ← (functionText f).run env {}
  return (acc.1 ++ [trimNewlines text], acc.2.say s.diagnostics s.errors)

def writeOrphan (p : Plan) (e : Emission) (orphan : Orphan) : Except Fault Emission := do
  let path := inDirectory p.options.outdir (sourceName orphan.stem)
  match orphan.source.bind fun source => (e.files.find? source).map fun text => (source, text) with
  | some (source, text) =>
    let input := { p.patchedInput e.files source text [] with
      module := { p.module with functions := orphan.functions }
      hasItemPool := false }
    let g ← Patched.orphanFile input orphan
    return (← e.write path g.text).say g.diagnostics g.errors
  | none =>
    let (functions, e) ← orphan.functions.foldlM p.orphanFunction ([], e)
    e.write path (← orphanSource p.module orphan functions)

def emit (p : Plan) (files : Files) : Except Fault Emission := do
  let root := p.options.rootClass
  let e : Emission := { files }
  let e ← e.write (inDirectory p.options.foundationDir "oz_dispatch.h")
    (← dispatchHeader p.module root p.itemPool)
  let e ← e.write (inDirectory p.options.foundationDir "oz_dispatch.c")
    (← dispatchSource p.module root p.itemPool p.options.hasHeap)
  let e ← p.stemGroups.entries.foldlM p.writeGroup e
  p.module.orphans.foldlM p.writeOrphan e

end Plan

end ObjcLowering.Program
