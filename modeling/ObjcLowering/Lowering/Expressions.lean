import ObjcLowering.Lowering.Blocks
import ObjcLowering.Lowering.MacroUse
import ObjcLowering.Lowering.Messages

namespace ObjcLowering.Lowering

open Ast

def lowerRecovery (n : Node) : Lower String := do
  let first := (← n.attrs.range.get).first
  let loc ← (if n.attrs.loc.isGiven then n.attrs.loc else first).get
  let line := loc.line.getD "?"
  let col := loc.col.getD "?"
  fail (s!"RecoveryExpr at line {line}, col {col} — Clang could not analyze this expression. "
    ++ "Ensure -fblocks is enabled, or use Apple Clang on macOS / a full LLVM Clang with ObjC "
    ++ "support on Linux.")
  return "0"

def firstText (expr : Node → Lower String) (n : Node) : Lower String :=
  match n.inner with
  | c :: _ => expr c
  | [] => return ""

def castText (n : Node) : Except Fault String := do return "(" ++ (← typeOf n).cType ++ ")"

def implicitCastText (n : Node) : Except Fault String := do
  let type : SourceType := ⟨← n.qualType⟩
  if n.castKind == "BitCast" then
    return if (← type.checked).isObject then "(" ++ type.cType ++ ")" else ""
  return ""

def lowerImplicitCast (expr : Node → Lower String) (n : Node) : Lower String := do
  match n.inner with
  | c :: _ =>
    let cast ← implicitCastText n
    return cast ++ (← expr c)
  | [] => return ""

def lowerCast (expr : Node → Lower String) (n : Node) : Lower String := do
  let cast ← castText n
  return cast ++ (← firstText expr n)

def binaryText (expr : Node → Lower String) (n : Node) : Lower String := do
  match ← n.children with
  | [a, b] =>
    let left ← expr a
    let right ← expr b
    return s!"{left} {n.opcode} {right}"
  | _ => return ""

def conditionalText (expr : Node → Lower String) (n : Node) : Lower String := do
  match ← n.children with
  | [a, b, c] =>
    let cond ← expr a
    let yes ← expr b
    let no ← expr c
    return cond ++ " ? " ++ yes ++ " : " ++ no
  | _ => return ""

def unaryText (expr : Node → Lower String) (n : Node) : Lower String := do
  match n.inner with
  | a :: _ =>
    if n.attrs.isPostfix then
      let operand ← expr a
      return operand ++ (← n.opcode.textOr .wrongValue)
    else
      let op ← n.opcode.textOr .wrongValue
      return op ++ (← expr a)
  | [] => return ""

def callText (expr : Node → Lower String) (n : Node) : Lower String := do
  match n.inner with
  | f :: args =>
    let function ← expr f
    let args ← args.mapM expr
    return function ++ "(" ++ Text.join ", " args ++ ")"
  | [] => return ""

def subscriptText (expr : Node → Lower String) (n : Node) : Lower String := do
  match ← n.children with
  | [a, b] =>
    let array ← expr a
    let index ← expr b
    return array ++ "[" ++ index ++ "]"
  | _ => return ""

def traitText (expr : Node → Lower String) (n : Node) : Lower String := do
  let op := n.attrs.name.getD "sizeof"
  match stated? (← n.attrs.argType.get).qual, n.inner with
  | some type, _ => return s!"{op}({type})"
  | none, c :: _ => return s!"{op}(" ++ (← expr c) ++ ")"
  | none, [] => return s!"{op}(/* unknown */)"

/-- Of a property or a subscript, the last message that it stands for, else its first part. -/
def pseudoObject? (n : Node) : Option Node :=
  let isMessage (c : Node) : Bool :=
    (c.unwrap ["ImplicitCastExpr", "ExprWithCleanups"]).kind == "ObjCMessageExpr"
  (n.inner.reverse.find? isMessage) <|> n.inner.head?

def ivarBase? (n : Node) : Except Fault (Option Node) :=
  match n.inner with
  | c :: _ =>
    if n.attrs.isFreeIvar then .ok none
    else do
      let base ← c.descend fun a => a.kind == "ImplicitCastExpr" && a.castKind == some "LValueToRValue"
      let name ← base.referencedName
      return if !name.holds || name == "self" then none else some c
  | [] => .ok none

def accessorName (env : Env) : Name :=
  if env.method.isSome then env.cls.name else "__free_function__"

def lowerIvar (expr : Node → Lower String) (n : Node) : Lower String := do
  let env ← read
  let ivar := (← n.attrs.decl.get).name.getD ""
  match ← ivarBase? n with
  | none =>
    let path := ivarPath env.module env.cls ivar
    return s!"self->{path}{ivar}"
  | some base =>
    match (ivarOwner? env.module ivar).filter fun (owner, v) =>
        !mayAccess env.module owner v (accessorName env) with
    | some (_, v) =>
      fail s!"instance variable '{ivar}' is {v.access}"
      return s!"/* access error: {ivar} */"
    | none => return (← expr base) ++ s!"->{ivar}"

def lowerKind (below : Below) (n : Node) : Lower String := do
  let expr := below.expr
  match n.kind with
  | "ExprWithCleanups" | "OpaqueValueExpr" => firstText expr n
  | "BlockExpr" => lowerBlock below n
  | "ImplicitCastExpr" => lowerImplicitCast expr n
  | "ObjCBridgedCastExpr" => lowerCast expr n
  | "CStyleCastExpr" =>
    if n.castKind == "NullToPointer" then return nullPointer else lowerCast expr n
  | "ParenExpr" => return "(" ++ (← firstText expr n) ++ ")"
  | "ObjCMessageExpr" => lowerMessage expr n
  | "ObjCIvarRefExpr" => lowerIvar expr n
  | "DeclRefExpr" => (← n.referencedName).textOr .wrongValue
  | "MemberExpr" =>
    return (← firstText expr n) ++ (if n.attrs.isArrow then s!"->{n.name}" else s!".{n.name}")
  | "BinaryOperator" | "CompoundAssignOperator" => binaryText expr n
  | "UnaryOperator" => unaryText expr n
  | "ConditionalOperator" => conditionalText expr n
  | "ConstantExpr" =>
    if n.inner.isEmpty then valueText "0" n.attrs.value else firstText expr n
  | "IntegerLiteral" => valueText "0" n.attrs.value
  | "FloatingLiteral" => valueText "0.0" n.attrs.value
  | "CharacterLiteral" => charText n.attrs.value
  | "StringLiteral" => valueText "\"\"" n.attrs.value
  | "ObjCStringLiteral" => lowerString n
  | "ObjCBoolLiteralExpr" => return boolText n.attrs.value
  | "ObjCBoxedExpr" => lowerBoxed expr n
  | "ObjCArrayLiteral" => lowerArray expr n
  | "ObjCDictionaryLiteral" => lowerDictionary expr n
  | "GNUNullExpr" | "CXXNullPtrLiteralExpr" => return nullPointer
  | "PseudoObjectExpr" =>
    match pseudoObject? n with
    | some c => expr c
    | none => return ""
  | "CallExpr" => callText expr n
  | "ArraySubscriptExpr" => subscriptText expr n
  | "CompoundLiteralExpr" =>
    let type ← n.qualType
    return s!"({type})" ++ (← firstText expr n)
  | "InitListExpr" =>
    let items ← (← n.children).mapM expr
    return "\x7b" ++ Text.join ", " items ++ "\x7d"
  | "UnaryExprOrTypeTraitExpr" => traitText expr n
  | kind =>
    match n.inner with
    | c :: _ => expr c
    | [] => return "/* TODO: " ++ kind ++ " */"

def exprStep (below : Below) (n : Node) : Lower String := do
  if (← n.check).kind = "RecoveryExpr" then lowerRecovery n
  else
    match ← copyExpr? below.expr n with
    | some text => return text
    | none => lowerKind below n

end ObjcLowering.Lowering
