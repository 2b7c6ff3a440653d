import ObjcLowering.Ast.Descent
import ObjcLowering.Lowering.Context
import ObjcLowering.Lowering.Ownership

namespace ObjcLowering.Lowering

open Ast

def nullPointer : String := "((void *)0)"

def valueText (default : String) (value : Option Json) : Lower String :=
  match value with
  | none => pure default
  | some (.text s) => pure s
  | some _ => throw .wrongValue

def isPlainCode (x : Rat) : Bool := 32 ≤ x && x < 127 && x != 39 && x != 92

def charText (value : Option Json) : Lower String :=
  match value.getD (.int 0) with
  | .int n =>
    if isPlainCode n then pure (.ofList ['\'', Char.ofNat n.toNat, '\'']) else pure (toString n)
  | .real x =>
    if (x.toRat?.map isPlainCode).getD false then throw .wrongValue
    else pure (Json.real x).plain
  | .bool b => pure (Json.bool b).plain
  | _ => throw .wrongValue

def boolText (value : Option Json) : String :=
  match value.getD (.bool false) with
  | .text s => if Text.has "no" (Text.lowerAscii s) then "0" else "1"
  | v => if v.holds then "1" else "0"

def position? (loc : Place) : Option (Json × Json) := do
  let line ← loc.line.filter (· != .null)
  let col ← loc.col.filter (· != .null)
  return (line, col)

def placeName (stem : String) (position : Option (Json × Json)) (number : Nat) : String :=
  match position with
  | some (line, col) => s!"{stem}_L{line}_C{col}"
  | none => s!"{stem}_L0_C{number}"

def stringConstant (name literal : String) : String :=
  "static struct OZString " ++ name ++ " = \x7b\x7b\x7b.class_id = OZ_CLASS_OZString, .immortal = 1\x7d, 1\x7d, "
    ++ toString (literal.toList.length - 2) ++ ", 0, " ++ literal ++ "\x7d;"

def internString (literal : String) (loc : Slot Place) : Lower String := do
  let s ← get
  match s.literals.find? literal with
  | some name => return name
  | none =>
    let position := position? (← loc.get)
    let name := placeName "_oz_str" position s.literals.entries.length
    if position.isNone then warn "warning: ObjCStringLiteral without source location"
    modify fun s => { s with
      literals := s.literals.set literal name
      strings := s.strings ++ [stringConstant name literal] }
    return name

def lowerString (n : Node) : Lower String := do
  let first ← liftM (n.inner.head?.mapM Node.check)
  let literal ← valueText "\"\"" (first.bind fun c => c.attrs.value)
  return "(struct OZString *)&" ++ (← internString literal n.attrs.loc)

/-- A reference that a collection can keep: retained, unless it is made on the spot. -/
def keptRef (expr : Node → Lower String) (n : Node) : Lower String := do
  let r ← root
  let ref ← expr n
  let any := "(struct " ++ r ++ " *)"
  return if isFreshAlloc n then any ++ ref else any ++ r ++ "_retain(" ++ any ++ ref ++ ")"

def addBuffer (name : String) (refs : List String) : Lower Unit := do
  let r ← root
  addPending name
    ("struct " ++ r ++ " *" ++ name ++ "[] = \x7b" ++ Text.join ", " refs ++ "\x7d;")

def lowerArray (expr : Node → Lower String) (n : Node) : Lower String := do
  let name := "_oz_arr_" ++ toString (← freshTemp) ++ "_buf"
  let refs ← (← n.children).mapM (keptRef expr)
  addBuffer name refs
  return "OZArray_initWithItems(" ++ name ++ ", " ++ toString refs.length ++ ")"

def keptPairs (expr : Node → Lower String) : List Node → Lower (List String × List String)
  | [] => return ([], [])
  | [key] => do
    let _ ← keptRef expr key
    throw .outOfRange
  | key :: value :: rest => do
    let k ← keptRef expr key
    let v ← keptRef expr value
    let (ks, vs) ← keptPairs expr rest
    return (k :: ks, v :: vs)

def lowerDictionary (expr : Node → Lower String) (n : Node) : Lower String := do
  let name := "_oz_dict_" ++ toString (← freshTemp) ++ "_kv"
  let (keys, values) ← keptPairs expr (← n.children)
  addBuffer name (keys ++ values)
  return "OZDictionary_initWithKeysValues(" ++ name ++ ", " ++ toString keys.length ++ ")"

inductive BoxKind
  | float
  | int
  deriving DecidableEq, Inhabited, Repr

def intTypes : List String :=
  ["int", "int8_t", "int16_t", "int32_t", "signed int", "signed char", "char", "short",
   "signed short", "long", "uint8_t", "uint16_t", "uint32_t", "unsigned int", "unsigned char",
   "unsigned short", "unsigned long", "BOOL", "_Bool"]

def boxKind (type : String) : BoxKind × Bool :=
  if type = "float" then (.float, false)
  else if type = "double" || type = "long double" then (.float, true)
  else if intTypes.contains type || Text.begins "enum " type then (.int, false)
  else (.int, true)

def boxedLiteral? (leaf : Node) : Lower (Option String) :=
  let value := leaf.attrs.value
  match leaf.kind with
  | "IntegerLiteral" =>
    return some ("OZQ31_fixedWithInt32_(" ++ (value.getD (.text "0")).plain ++ ")")
  | "FloatingLiteral" => do
    let v ← (value.getD "0.0").textOr .unfit
    let v := if Text.ends "f" v || Text.ends "F" v then v else v ++ "f"
    return some ("OZQ31_fixedWithFloat_(" ++ v ++ ")")
  | "CharacterLiteral" =>
    return some ("OZQ31_fixedWithInt32_(" ++ (value.getD (.int 0)).plain ++ ")")
  | "ObjCBoolLiteralExpr" => return some ("OZQ31_fixedWithBool_(" ++ boolText value ++ ")")
  | _ => return none

def isStringType (type : String) : Bool :=
  Text.has "char *" type || Text.has "NSString" type || Text.has "OZString" type

def boxedExpr (expr : Node → Lower String) (n : Node) : Lower String := do
  let type ← (← n.qualType).textOr .wrongValue
  if isStringType type then
    fail "boxed string expression @(expr) is not supported; use OZString literals instead"
    return nullPointer
  else
    let (kind, loses) := boxKind type
    if loses then
      warn s!"warning: @(expr) with type '{type}' boxed to OZQ31 via int32; verify no precision loss"
    let e ← expr n
    return match kind with
      | .float => "OZQ31_fixedWithFloat_((float)(" ++ e ++ "))"
      | .int => "OZQ31_fixedWithInt32_((int32_t)(" ++ e ++ "))"

def lowerBoxed (expr : Node → Lower String) (n : Node) : Lower String := do
  match n.inner with
  | [] =>
    fail ("boxed expression @(...) is not supported; "
      ++ "use [OZQ31 fixedWithInt32:] or [OZQ31 fixedWithFloat:]")
    return nullPointer
  | child :: _ =>
    discard (child.qualType : Except Fault Json)
    let leaf ← liftM (child.descend fun a => a.kind == "ImplicitCastExpr")
    match ← boxedLiteral? leaf with
    | some text => return text
    | none => boxedExpr expr child

end ObjcLowering.Lowering
