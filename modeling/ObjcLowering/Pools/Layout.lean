import ObjcLowering.Ast.Node
import ObjcLowering.Table

namespace ObjcLowering.Pools

open Ast

def qualifiers : List String :=
  ["__strong", "__weak", "__unsafe_unretained", "__autoreleasing", "_Nonnull", "_Nullable"]

def bareType (type : String) : String :=
  Text.trim (qualifiers.foldl (fun t q => Text.replace q "" t) type)

def scalarSizes (pointer : Int) : List (String × Int) :=
  [("int", 4), ("unsigned int", 4), ("uint32_t", 4), ("int32_t", 4),
   ("short", 2), ("unsigned short", 2), ("uint16_t", 2), ("int16_t", 2),
   ("char", 1), ("unsigned char", 1), ("uint8_t", 1), ("int8_t", 1),
   ("BOOL", 1), ("_Bool", 1), ("bool", 1),
   ("float", 4), ("double", 8), ("atomic_t", 4),
   ("long", pointer), ("unsigned long", pointer), ("long long", 8), ("unsigned long long", 8),
   ("uint64_t", 8), ("int64_t", 8),
   ("size_t", pointer), ("ptrdiff_t", pointer), ("uintptr_t", pointer)]

def typeSize (type : String) (pointer : Int) : Int :=
  let bare := bareType type
  if Text.has "*" bare || ["id", "Class", "SEL", "IMP"].contains bare then pointer
  else ((scalarSizes pointer).lookup bare).getD pointer

def clearBits (a mask : Int) : Int :=
  let width := max a.natAbs.log2 mask.natAbs.log2 + 2
  (BitVec.ofInt width a &&& ~~~ BitVec.ofInt width mask).toInt

def alignUp (size align : Int) : Int := clearBits (size + align - 1) (align - 1)

structure ClassLayout where
  superName : Name
  ivarTypes : List Json
  deriving Inhabited, Repr

def ivarType? (n : Node) : Except Fault (Option Json) := do
  let n ← n.check
  if n.kind = "ObjCIvarDecl" then return some (← n.qualType) else return none

def layoutOf (n : Node) : Except Fault ClassLayout := do
  let superName := (← n.attrs.superDecl.get).name.getD ""
  n.attrs.checkInner
  return { superName, ivarTypes := ← n.inner.filterMapM ivarType? }

def ownInterface (n : Node) : Except Fault (List (Name × ClassLayout)) := do
  if n.kind = "ObjCInterfaceDecl" then
    let layout ← layoutOf n
    return [(← n.name.asKey, layout)]
  else
    n.attrs.checkInner
    return []

mutual

def interfaces : Node → Except Fault (List (Name × ClassLayout))
  | .mk a ns => do
    if a.isAlien then throw .unfit
    if a.kind = "ObjCInterfaceDecl" && !(a.name.getD "").holds then return []
    return (← ownInterface (.mk a ns)) ++ (← interfacesList ns)

def interfacesList : List Node → Except Fault (List (Name × ClassLayout))
  | [] => .ok []
  | n :: ns => do return (← interfaces n) ++ (← interfacesList ns)

end

def addInterface (table : Table Name ClassLayout) (interface : Name × ClassLayout) :
    Table Name ClassLayout :=
  if !table.has interface.1 || !interface.2.ivarTypes.isEmpty then table.set interface.1 interface.2
  else table

def classLayouts (roots : List Node) : Except Fault (Table Name ClassLayout) := do
  return (← interfacesList roots).foldl addInterface {}

/-- The size of what a class inherits from `up`, where `sizeOf` gives the sizes of known classes. An
unknown superclass counts as a header. -/
def inheritedPart (classes : Table Name ClassLayout) (pointer : Int) (sizeOf : Name → Except Fault Int)
    (up : Name) : Except Fault Int := do
  if up.holds then
    if classes.has (← up.asKey) then sizeOf up else return pointer + 4
  else return 0

/-- The size of an instance, inherited part first. The chain of superclasses is followed for `fuel`
classes. -/
def instanceSize (classes : Table Name ClassLayout) (pointer : Int) :
    (fuel : Nat) → Name → Except Fault Int
  | 0, _ => .ok (pointer + 4)
  | fuel + 1, name =>
    match classes.find? name with
    | none => .ok (pointer + 4)
    | some layout => do
      let base ← inheritedPart classes pointer (instanceSize classes pointer fuel) layout.superName
      let own ← layout.ivarTypes.mapM fun t => do return typeSize (← t.textOr .unfit) pointer
      return alignUp (base + own.foldr (· + ·) 0) pointer

def classSizes (classes : Table Name ClassLayout) (pointer : Int) :
    Except Fault (Table Name Int) := do
  let fuel := classes.entries.length + 1
  return ⟨← classes.names.mapM fun name => do
    return (name, ← instanceSize classes pointer fuel name)⟩

end ObjcLowering.Pools
