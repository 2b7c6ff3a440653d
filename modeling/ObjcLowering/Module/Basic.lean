import ObjcLowering.Ast.Node
import ObjcLowering.Source.Path
import ObjcLowering.SourceType
import ObjcLowering.Table

namespace ObjcLowering

inductive Dispatch
  | direct
  | table
  deriving DecidableEq, Inhabited, Repr

structure Param where
  name : Name
  type : SourceType
  deriving DecidableEq, Inhabited, Repr

structure Property where
  name : Name
  type : SourceType
  ivar : Option Name := none
  isReadonly : Json := .bool false
  isNonatomic : Json := .bool false
  ownership : String := "strong"
  getter : Option Name := none
  setter : Option Name := none
  /-- Tells properties with accessors of their own apart, within a module. -/
  serial : Option Nat := none
  deriving DecidableEq, Inhabited, Repr

structure Ivar where
  name : Name
  type : SourceType
  access : Json := "protected"
  deriving DecidableEq, Inhabited, Repr

structure Method where
  selector : Name
  returnType : SourceType
  params : List Param := []
  isClassMethod : Bool := false
  body : Option Ast.Node := none
  dispatch : Dispatch := .direct
  /-- The property that the method was made for. All methods that were made for it share its type. -/
  synthesized : Option Property := none
  deriving Inhabited, Repr

structure Protocol where
  name : Name
  methods : List Method := []
  deriving Inhabited, Repr

structure Function where
  name : Name
  returnType : SourceType
  params : List Param := []
  body : Option Ast.Node := none
  usesObjects : Bool := false
  isStatic : Bool := false
  deriving Inhabited, Repr

structure StaticVar where
  name : Name
  type : SourceType
  init : Option Json := none
  deriving Inhabited, Repr

structure ClassDecl where
  name : Name
  superclass : Option Name := none
  ivars : List Ivar := []
  methods : List Method := []
  protocols : List Name := []
  properties : List Property := []
  id : Int := -1
  depth : Int := 0
  verbatim : List String := []
  headerVerbatim : List String := []
  includes : List String := []
  functions : List Function := []
  statics : List StaticVar := []
  stem : String := ""
  isFoundation : Bool := false
  deriving Inhabited, Repr

structure Orphan where
  stem : String
  functions : List Function := []
  statics : List StaticVar := []
  verbatim : List String := []
  includes : List String := []
  source : Option Path := none
  deriving Inhabited, Repr

structure Module where
  classes : Table Name ClassDecl := {}
  protocols : Table Name Protocol := {}
  functions : List Function := []
  statics : List StaticVar := []
  verbatim : List String := []
  headerVerbatim : List String := []
  includes : List String := []
  typeDefs : Table String String := {}
  diagnostics : List String := []
  errors : List String := []
  initializers : List Name := []
  generics : Table String String := {}
  stem : String := ""
  source : Option Path := none
  sources : Table String Path := {}
  orphans : List Orphan := []
  mainClasses : List Name := []
  deriving Inhabited, Repr

namespace Module

def warn (m : Module) (text : String) : Module := { m with diagnostics := m.diagnostics ++ [text] }

def fail (m : Module) (text : String) : Module := { m with errors := m.errors ++ [text] }

def class? (m : Module) (name : Name) : Option ClassDecl := m.classes.find? name

def parent? (m : Module) (cls : ClassDecl) : Option ClassDecl :=
  (stated? cls.superclass).bind m.class?

def isRoot (m : Module) (cls : ClassDecl) : Bool := (m.parent? cls).isNone

/-- A class and its ancestors in the module, nearest first, for at most `fuel` classes. -/
def chainFrom (m : Module) : (fuel : Nat) → ClassDecl → List ClassDecl
  | 0, _ => []
  | fuel + 1, cls =>
    match m.parent? cls with
    | some up => cls :: m.chainFrom fuel up
    | none => [cls]

/-- A class and its ancestors. Without a cycle the chain has at most as many links as classes. -/
def chain (m : Module) (cls : ClassDecl) : List ClassDecl :=
  m.chainFrom (m.classes.entries.length + 1) cls

def bodies (m : Module) : List (Option Ast.Node) :=
  (m.classes.values.flatMap fun c => c.methods.map (·.body) ++ c.functions.map (·.body))
    ++ m.functions.map (·.body) ++ m.orphans.flatMap fun o => o.functions.map (·.body)

end Module

def ClassDecl.allProperties (cls : ClassDecl) : List Property :=
  cls.properties ++ cls.methods.filterMap (·.synthesized)

def Module.nextSerial (m : Module) : Nat :=
  let serials := m.classes.values.flatMap fun c => c.allProperties.filterMap (·.serial)
  serials.foldl (fun n k => max n (k + 1)) 0

def ClassDecl.hasBody (cls : ClassDecl) : Bool := cls.methods.any fun m => m.body.isSome

def ClassDecl.method? (cls : ClassDecl) (selector : Name) : Option Method :=
  cls.methods.find? fun m => m.selector == selector

/-- Puts a method in the place of the first one with its selector, unless that one has a body and
the new one has none; a new selector goes to the end. -/
def mergeMethod (method : Method) : List Method → List Method
  | [] => [method]
  | m :: ms =>
    if m.selector = method.selector then
      if method.body.isSome || m.body.isNone then method :: ms else m :: ms
    else m :: mergeMethod method ms

def mergeMethods (old new : List Method) : List Method := new.foldl (fun ms m => mergeMethod m ms) old

end ObjcLowering
