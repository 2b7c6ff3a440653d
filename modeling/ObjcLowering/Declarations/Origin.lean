import ObjcLowering.Ast.Node

namespace ObjcLowering.Declarations

open Ast

def objectKinds : List String :=
  ["ObjCMessageExpr", "ObjCIvarRefExpr", "ObjCSelectorExpr", "ObjCProtocolExpr",
   "ObjCBoolLiteralExpr", "ObjCStringLiteral", "ObjCBoxedExpr", "ObjCArrayLiteral",
   "ObjCDictionaryLiteral", "BlockExpr", "PseudoObjectExpr"]

def hasObjectNodes (n : Node) : Bool := n.preorder.any fun m => objectKinds.contains m.kind

def isFromMainFile (n : Node) : Except Fault Bool := do
  match n.attrs.loc with
  | .absent => return true
  | .alien j =>
    if ← j.mentions "includedFrom" then return false
    if ← j.mentions "expansionLoc" then throw .wrongValue
    return true
  | .present loc =>
    if loc.includedFrom.isGiven then return false
    match loc.expansion with
    | .absent => return true
    | .present spot => return !spot.includedFrom.isGiven
    | .alien j => return !(← j.mentions "includedFrom")

def isMacroExpanded (n : Node) : Except Fault Bool := do
  let spelling ← (← n.attrs.loc.get).spelling.get
  return spelling.file == some "<scratch space>"

def systemPathSegments : List String :=
  ["/zephyr/", "/sdk/", "/clang/", "/picolibc/", "/cmsis/", "/CMSIS/", "/sys-include/", "/SDKs/",
   "/usr/include/", "zephyr-sdk"]

def isStubSource (path : Json) : Except Fault Bool := do
  if ← path.mentions "oz_transpile" then return true
  path.mentions "/oz_sdk/"

def fileOf (n : Node) (lastFile : Json) : Except Fault Json := do
  let own := (← n.attrs.loc.get).file.getD ""
  return if own.holds then own else lastFile

def includerOf (n : Node) : Except Fault Json := do
  let includer ← (← n.attrs.loc.get).includedFrom.get
  return includer.file.getD ""

def isUserFile (n : Node) (lastFile : Json) : Except Fault Bool := do
  let own ← fileOf n lastFile
  let file ← if own.holds then pure own else includerOf n
  if !file.holds then return false
  if ← systemPathSegments.anyM file.mentions then return false
  return !(← isStubSource file)

def isUserStruct (n : Node) (lastFile : Json) : Except Fault Bool :=
  if n.attrs.isComplete && n.name.holds then isUserFile n lastFile else .ok false

def isUserEnum (n : Node) (lastFile : Json) : Except Fault Bool :=
  if n.name.holds && !n.inner.isEmpty then isUserFile n lastFile else .ok false

def isStubType (n : Node) (lastFile : Json) : Except Fault Bool := do
  if !n.name.holds then return false
  let file ← fileOf n lastFile
  let includer ← includerOf n
  if ← isStubSource file then return true
  isStubSource includer

def hasInitializer (n : Node) : Except Fault Bool := do
  (← n.children).anyM fun c =>
    if c.attrs.hasTextKind then .ok (Text.ends "Expr" c.kind) else .error .unfit

mutual

def initValue : Node → Option Json
  | .mk _ ns => initValueList ns

def initValueList : List Node → Option Json
  | [] => none
  | n :: ns =>
    if n.kind = "IntegerLiteral" || n.kind = "FloatingLiteral" then
      match n.attrs.value with
      | some .null => none
      | v => v
    else if n.kind = "ImplicitCastExpr" || n.kind = "CStyleCastExpr" then
      if n.castKind = "NullToPointer" then some (.text "NULL") else initValue n
    else if n.kind = "ParenExpr" then initValue n
    else if n.kind = "GNUNullExpr" then some (.text "NULL")
    else if n.kind = "UnaryOperator" && n.opcode = "-" then
      match initValue n with
      | some v => some (.text ("-" ++ v.plain))
      | none => initValueList ns
    else initValueList ns

end

def firstMainFile? : List Node → Except Fault (Option Json)
  | [] => .ok none
  | n :: ns => do
    let loc ← n.attrs.loc.get
    match loc.file.filter Json.holds with
    | some file => if loc.includedFrom.isGiven then firstMainFile? ns else return some file
    | none => firstMainFile? ns

def mainFile? (root : Node) : Except Fault (Option Json) := do firstMainFile? (← root.children)

end ObjcLowering.Declarations
