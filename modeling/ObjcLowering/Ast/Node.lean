import ObjcLowering.Json.Display

namespace ObjcLowering

abbrev Name := Json

def stated? (name : Option Name) : Option Name := name.filter Json.holds

namespace Ast

inductive Slot (α : Type)
  | absent
  | present (a : α)
  | alien (j : Json)
  deriving Inhabited, Repr

namespace Slot

variable {α β : Type}

def getOr [Inhabited α] (f : Fault) : Slot α → Except Fault α
  | absent => .ok default
  | present a => .ok a
  | alien _ => .error f

def get [Inhabited α] (p : Slot α) : Except Fault α := p.getOr .unfit

def holds (stated : α → Bool) : Slot α → Bool
  | absent => false
  | present a => stated a
  | alien j => j.holds

def isGiven : Slot α → Bool
  | absent => false
  | _ => true

def present? : Slot α → Option α
  | present a => some a
  | _ => none

end Slot

structure TypeRef where
  qual : Option Json := none
  desugared : Option Json := none
  deriving Inhabited, Repr

structure Inclusion where
  file : Option Json := none
  isStated : Bool := false
  deriving Inhabited, Repr

structure Spot where
  file : Option Json := none
  line : Option Json := none
  col : Option Json := none
  offset : Option Json := none
  tokLen : Option Json := none
  includedFrom : Slot Inclusion := .absent
  macroArgument : Bool := false
  isStated : Bool := false
  deriving Inhabited, Repr

structure Place extends Spot where
  expansion : Slot Spot := .absent
  spelling : Slot Spot := .absent
  deriving Inhabited, Repr

structure Range where
  first : Slot Place := .absent
  last : Slot Place := .absent
  deriving Inhabited, Repr

structure DeclRef where
  name : Option Name := none
  deriving Inhabited, Repr

structure Attrs where
  kind : String := ""
  hasTextKind : Bool := true
  name : Option Name := none
  type : Slot TypeRef := .absent
  returnType : Slot TypeRef := .absent
  classType : Slot TypeRef := .absent
  argType : Slot TypeRef := .absent
  value : Option Json := none
  opcode : Option Json := none
  castKind : Option Json := none
  receiverKind : Option Json := none
  selector : Option Name := none
  storageClass : Option Json := none
  tagUsed : Option Json := none
  access : Option Json := none
  superDecl : Slot DeclRef := .absent
  interfaceDecl : Slot DeclRef := .absent
  referencedDecl : Slot DeclRef := .absent
  decl : Slot DeclRef := .absent
  boundVar : Slot DeclRef := .absent
  propertyDecl : Slot DeclRef := .absent
  ivarDecl : Slot DeclRef := .absent
  getter : Slot DeclRef := .absent
  setter : Slot DeclRef := .absent
  protocols : Except Fault (List (Slot DeclRef)) := .ok []
  isClassLevel : Bool := false
  isImplicit : Bool := false
  isInline : Bool := false
  isArrow : Bool := false
  isPostfix : Bool := false
  isFreeIvar : Bool := false
  isByRef : Bool := false
  hasElse : Bool := false
  isComplete : Bool := false
  isReadonly : Option Json := none
  isNonatomic : Option Json := none
  isWeak : Bool := false
  isStrong : Bool := false
  isAssign : Bool := false
  isUnretained : Bool := false
  loc : Slot Place := .absent
  range : Slot Range := .absent
  /-- Whether a list of children is present, even an empty one. -/
  hasInner : Bool := false
  /-- What is wrong with the children when something else stands for their list. -/
  innerFault : Option Fault := none
  /-- Whether the node only holds the place of a missing one. -/
  isNull : Bool := false
  /-- Whether a value that is no node stands in the node's place. -/
  isAlien : Bool := false
  deriving Inhabited, Repr

def Attrs.checkInner (a : Attrs) : Except Fault Unit :=
  match a.innerFault with
  | some f => .error f
  | none => .ok ()

inductive Node
  | mk (attrs : Attrs) (inner : List Node)
  deriving Inhabited, Repr

namespace Node

def attrs : Node → Attrs
  | mk a _ => a

def inner : Node → List Node
  | mk _ ns => ns

def blank : Node := mk { isNull := true } []

def kind (n : Node) : String := n.attrs.kind

def isNull (n : Node) : Bool := n.attrs.isNull

def name (n : Node) : Name := n.attrs.name.getD ""

def qualTypeOr (d : Json) (n : Node) : Except Fault Json := do
  return (← n.attrs.type.get).qual.getD d

def qualType (n : Node) : Except Fault Json := n.qualTypeOr ""

def opcode (n : Node) : Json := n.attrs.opcode.getD ""

def castKind (n : Node) : Json := n.attrs.castKind.getD ""

def selector (n : Node) : Name := n.attrs.selector.getD ""

def receiverKind (n : Node) : Json := n.attrs.receiverKind.getD ""

def referencedName (n : Node) : Except Fault Name := do
  return (← n.attrs.referencedDecl.get).name.getD ""

def firstPlace (n : Node) : Except Fault Place := do (← n.attrs.range.get).first.get

def lastPlace (n : Node) : Except Fault Place := do (← n.attrs.range.get).last.get

def check (n : Node) : Except Fault Node := if n.attrs.isAlien then .error .unfit else .ok n

def children (n : Node) : Except Fault (List Node) := do
  (← n.check).attrs.checkInner
  n.inner.mapM check

mutual

def depth : Node → Nat
  | mk _ ns => depthList ns + 1

def depthList : List Node → Nat
  | [] => 0
  | n :: ns => max (depth n) (depthList ns)

end

mutual

/-- The expression below wrappers of the given kinds, each of which wraps its first child. A wrapper
without children stands for itself. -/
def unwrap (kinds : List String) : Node → Node
  | mk a ns => if kinds.contains a.kind then unwrapFirst kinds (mk a ns) ns else mk a ns

def unwrapFirst (kinds : List String) (outer : Node) : List Node → Node
  | [] => outer
  | n :: _ => unwrap kinds n

end

def belowCasts (n : Node) : Node := n.unwrap ["ImplicitCastExpr"]

mutual

def preorder : Node → List Node
  | mk a ns => mk a ns :: preorderList ns

def preorderList : List Node → List Node
  | [] => []
  | n :: ns => preorder n ++ preorderList ns

end

def checkTree (n : Node) : Except Fault Unit := n.preorder.forM fun m => discard m.children

end Node

end Ast

end ObjcLowering
