import ObjcLowering.Module.Basic

namespace ObjcLowering.Module

def foundationNames : List Name :=
  ["OZObject", "OZString", "OZMutableString", "OZArray", "OZDictionary", "OZQ31", "OZDefer",
   "OZHeap", "OZSpinLock"]

def tagFoundation (m : Module) (root : Name) : Module :=
  { m with classes := ⟨m.classes.entries.map fun (key, c) =>
      (key, if foundationNames.contains c.name || key = root then { c with isFoundation := true } else c)⟩ }

def hasLooseItems (m : Module) : Bool :=
  !(m.functions.isEmpty && m.statics.isEmpty && m.verbatim.isEmpty && m.includes.isEmpty)

def implementedClass? (m : Module) : Option ClassDecl :=
  let implemented := m.classes.values.filter ClassDecl.hasBody
  (implemented.find? fun c => !foundationNames.contains c.name).or implemented.head?

def clearLoose (m : Module) : Module :=
  { m with functions := [], statics := [], verbatim := [], includes := [] }

def giveLooseTo (m : Module) (name : Name) : Module :=
  clearLoose { m with
    classes := m.classes.modify name fun c =>
      { c with
        functions := c.functions ++ m.functions
        statics := c.statics ++ m.statics
        verbatim := addAllNew c.verbatim m.verbatim
        includes := addAllNew c.includes m.includes } }

def giveLooseToOrphan (m : Module) : Module :=
  if m.hasLooseItems && m.stem != "" then
    clearLoose { m with
      orphans := m.orphans ++
        [{ stem := m.stem, functions := m.functions, statics := m.statics, verbatim := m.verbatim,
           includes := m.includes, source := m.sources.find? m.stem }] }
  else m

/-- Gives the loose items of a source file to the class that the file implements, or keeps them
together as a file without a class. -/
def associate (m : Module) : Module :=
  if !m.hasLooseItems then m
  else
    match m.implementedClass? with
    | some cls => m.giveLooseTo cls.name
    | none => m.giveLooseToOrphan

def associateAll (m : Module) : Module :=
  if !m.hasLooseItems then m
  else
    let primary := m.implementedClass?.or
      ((m.classes.values.find? fun c => !(c.methods.isEmpty && c.ivars.isEmpty)).or
        m.classes.values.head?)
    match primary with
    | some cls => m.giveLooseTo cls.name
    | none => m

end ObjcLowering.Module
