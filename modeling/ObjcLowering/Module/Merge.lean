import ObjcLowering.Module.Basic

namespace ObjcLowering

def mergeClass (old new : ClassDecl) : ClassDecl :=
  { old with
    superclass :=
      if (stated? new.superclass).isSome && (stated? old.superclass).isNone then new.superclass
      else old.superclass
    ivars := if old.ivars.isEmpty then new.ivars else old.ivars
    protocols :=
      if new.protocols.isEmpty then old.protocols else distinct (old.protocols ++ new.protocols)
    properties := if old.properties.isEmpty then new.properties else old.properties
    methods := mergeMethods old.methods new.methods
    verbatim := addAllNew old.verbatim new.verbatim
    headerVerbatim := addAllNew old.headerVerbatim new.headerVerbatim
    includes := addAllNew old.includes new.includes
    functions := old.functions ++ new.functions
    statics := old.statics ++ new.statics
    stem := if old.stem = "" then new.stem else old.stem }

def mergeClasses (old new : Table Name ClassDecl) : Table Name ClassDecl :=
  new.entries.foldl
    (fun classes (name, cls) =>
      match classes.find? name with
      | some known => classes.set name (mergeClass known cls)
      | none => classes.set name cls) old

def Property.raise (k : Nat) (p : Property) : Property :=
  { p with serial := p.serial.map (· + k) }

def ClassDecl.raiseSerials (k : Nat) (cls : ClassDecl) : ClassDecl :=
  { cls with
    properties := cls.properties.map (Property.raise k)
    methods := cls.methods.map fun m => { m with synthesized := m.synthesized.map (Property.raise k) } }

namespace Module

def add (m n : Module) : Module :=
  { m with
    classes := mergeClasses m.classes (n.classes.mapValues (ClassDecl.raiseSerials m.nextSerial))
    protocols := m.protocols.merge n.protocols
    functions := m.functions ++ n.functions
    statics := m.statics ++ n.statics
    verbatim := addAllNew m.verbatim n.verbatim
    headerVerbatim := addAllNew m.headerVerbatim n.headerVerbatim
    includes := addAllNew m.includes n.includes
    typeDefs := m.typeDefs.merge n.typeDefs
    diagnostics := m.diagnostics ++ n.diagnostics
    errors := m.errors ++ n.errors
    orphans := m.orphans ++ n.orphans
    sources := m.sources.merge n.sources
    generics := m.generics.merge n.generics }

def merge (ms : List Module) : Module := ms.foldl add {}

end Module

end ObjcLowering
