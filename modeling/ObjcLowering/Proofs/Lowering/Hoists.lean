import ObjcLowering.Proofs.Evaluation
import ObjcLowering.Proofs.Lowering.Callees

/-! Which declarations an expression queues. -/

namespace ObjcLowering.Lowering

open Ast

/-- A step in the writing of an expression: a part of it is written, or the expression queues a
declaration of its own. -/
inductive Part
  | expr (p : Position)
  | own
  deriving DecidableEq, Inhabited, Repr

def childParts (p : Position) (start count : Nat) : List Part :=
  (List.range' start count).map fun i => .expr (p ++ [i])

def allParts (n : Node) : List Part := childParts [] 0 n.inner.length

def firstPart (n : Node) : List Part := if n.inner.isEmpty then [] else [.expr [0]]

def exactParts (count : Nat) (n : Node) : List Part :=
  if n.inner.length = count then allParts n else []

def isTableSend (env : Env) (n : Node) : Bool :=
  match knownReceiver env.module (receiver? n), dispatchOf env.module n.selector with
  | .ok none, .table => true
  | _, _ => false

def instanceParts (env : Env) (n : Node) : List Part :=
  (if (receiver? n).isSome then .expr [0] :: if isTableSend env n then [.own] else [] else [])
    ++ childParts [] 1 n.inner.tail.length

def messageParts (env : Env) (n : Node) : List Part :=
  match n.receiverKind with
  | .text kind =>
    if Text.begins "super" kind then allParts n
    else if kind = "class" then if n.selector == "initialize" then [] else allParts n
    else instanceParts env n
  | _ => []

def isIvarRefused (env : Env) (n : Node) : Bool :=
  match n.attrs.decl.get with
  | .ok decl => ((ivarOwner? env.module (decl.name.getD "")).filter fun (owner, v) =>
      !mayAccess env.module owner v (accessorName env)).isSome
  | .error _ => false

def ivarParts (env : Env) (n : Node) : List Part :=
  match ivarBase? n with
  | .ok (some _) => if isIvarRefused env n then [] else [.expr [0]]
  | _ => []

def isBoxedLiteral (leaf : Node) : Bool :=
  ["IntegerLiteral", "FloatingLiteral", "CharacterLiteral", "ObjCBoolLiteralExpr"].contains leaf.kind

def hasStringType (n : Node) : Bool :=
  match n.qualType with
  | .ok (.text type) => isStringType type
  | _ => false

def boxedParts (n : Node) : List Part :=
  match n.inner with
  | [] => []
  | child :: _ =>
    match child.descend fun a => a.kind == "ImplicitCastExpr" with
    | .ok leaf => if isBoxedLiteral leaf || hasStringType child then [] else [.expr [0]]
    | .error _ => []

def traitParts (n : Node) : List Part :=
  match n.attrs.argType.get with
  | .ok type => if (stated? type.qual).isSome then [] else firstPart n
  | .error _ => []

def lastMessage? (ns : List Node) : Option Nat :=
  (ns.reverse.findIdx? fun c =>
    (c.unwrap ["ImplicitCastExpr", "ExprWithCleanups"]).kind == "ObjCMessageExpr").map fun i =>
      ns.length - 1 - i

def pseudoParts (n : Node) : List Part :=
  match lastMessage? n.inner with
  | some i => [.expr [i]]
  | none => firstPart n

def kindParts (env : Env) (n : Node) : List Part :=
  match n.kind with
  | "CStyleCastExpr" => if n.castKind == "NullToPointer" then [] else firstPart n
  | "ObjCMessageExpr" => messageParts env n
  | "ObjCIvarRefExpr" => ivarParts env n
  | "BinaryOperator" | "CompoundAssignOperator" | "ArraySubscriptExpr" => exactParts 2 n
  | "ConditionalOperator" => exactParts 3 n
  | "CallExpr" | "InitListExpr" => allParts n
  | "ObjCBoxedExpr" => boxedParts n
  | "ObjCArrayLiteral" | "ObjCDictionaryLiteral" => allParts n ++ [.own]
  | "PseudoObjectExpr" => pseudoParts n
  | "UnaryExprOrTypeTraitExpr" => traitParts n
  | "BlockExpr" | "DeclRefExpr" | "IntegerLiteral" | "FloatingLiteral" | "CharacterLiteral"
  | "StringLiteral" | "ObjCStringLiteral" | "ObjCBoolLiteralExpr" | "GNUNullExpr"
  | "CXXNullPtrLiteralExpr" => []
  | _ => firstPart n

mutual

/-- The positions of the arguments that are put into the copy of a macro's use, for a tree at a
position, and the ranges seen. -/
def patchedIn (p : Position) (seen : List (Int × Int)) : Node → List Position × List (Int × Int)
  | .mk a ns =>
    match spelledRange? a with
    | .ok (some range) => if seen.contains range then patchedInAll p 0 seen ns else ([p], range :: seen)
    | _ => patchedInAll p 0 seen ns

def patchedInAll (p : Position) (i : Nat) (seen : List (Int × Int)) :
    List Node → List Position × List (Int × Int)
  | [] => ([], seen)
  | n :: ns =>
    let first := patchedIn (p ++ [i]) seen n
    let others := patchedInAll p (i + 1) first.2 ns
    (first.1 ++ others.1, others.2)

end

def isIncludedConstant (source : String) (n : Node) (offset length : Json) : Bool :=
  match byteCount offset, byteCount length, isSpeltInIncluded n with
  | .ok offset, .ok length, .ok isIncluded =>
    match macroText source offset length with
    | .ok text => isIncluded && !(length < text.toList.length) && isTrivialExpansion n
    | .error _ => false
  | _, _, _ => false

def macroParts? (source : String) (n : Node) (offset length : Json) : Option (List Part) :=
  if isIncludedConstant source n offset length then none
  else some ((patchedIn [] [] n).1.map .expr)

def copyParts? (env : Env) (n : Node) : Option (List Part) :=
  match env.source, macroUse? n with
  | some source, .ok (some (offset, length)) => macroParts? source n offset length
  | _, _ => none

def exprParts (env : Env) (n : Node) : List Part :=
  if n.kind = "RecoveryExpr" then [] else (copyParts? env n).getD (kindParts env n)

def Part.hoists (below : Node → List Position) (n : Node) : Part → List Position
  | .expr p => ((n.part? p).map fun c => (below c).map (p ++ ·)).getD []
  | .own => [[]]

/-- The positions of the forms in an expression that declare something, in the order in which an
expression of a given depth queues the declarations. -/
def hoists (env : Env) : Nat → Node → List Position
  | 0, _ => []
  | k + 1, n => (exprParts env n).flatMap (Part.hoists (hoists env k) n)

def WrittenAs (env : Env) (n : Node) (text : String) : Prop :=
  ∃ k s s', Yields ((level k).expr n) env s text s'

def KeptAs (env : Env) (n : Node) (text : String) : Prop :=
  ∃ k s s', Yields (keptRef (level k).expr n) env s text s'

def bufferDecl (root name : String) (refs : List String) : TempDecl :=
  ⟨name, "struct " ++ root ++ " *" ++ name ++ "[] = \x7b" ++ Text.join ", " refs ++ "\x7d;"⟩

def receiverDecl (root name value : String) : TempDecl :=
  ⟨name, pointerTo root ++ name ++ " = (" ++ pointerTo root ++ ")" ++ value ++ ";"⟩

/-- What an expression declares: it evaluates the receiver of the message, or the elements of the
literal. -/
inductive DeclaredBy (env : Env) : Node → TempDecl → Prop
  | receiver (number : Nat) : n.kind = "ObjCMessageExpr" →
      isTableSend env n → receiver? n = some r → WrittenAs env r value →
      DeclaredBy env n (receiverDecl env.root ("_oz_recv" ++ toString number) value)
  | array (number : Nat) : n.kind = "ObjCArrayLiteral" →
      List.Forall₂ (KeptAs env) n.inner refs →
      DeclaredBy env n (bufferDecl env.root ("_oz_arr_" ++ toString number ++ "_buf") refs)
  | dictionary {n : Node} {pairs : List (String × String)} (number : Nat) :
      n.kind = "ObjCDictionaryLiteral" →
      List.Forall₂ (KeptAs env) n.inner (pairs.flatMap fun pair => [pair.1, pair.2]) →
      DeclaredBy env n (bufferDecl env.root ("_oz_dict_" ++ toString number ++ "_kv")
        (pairs.map (·.1) ++ pairs.map (·.2)))

def DeclaredAt (env : Env) (n : Node) (p : Position) (d : TempDecl) : Prop :=
  ∃ m, n.part? p = some m ∧ DeclaredBy env m d

def ChildrenAt (n : Node) (p : Position) (start : Nat) (cs : List Node) : Prop :=
  ∀ i c, cs[i]? = some c → n.part? (p ++ [start + i]) = some c

theorem childrenAt_inner (h : n.part? p = some c) : ChildrenAt n p 0 c.inner := by
  intro i d hd
  rw [Node.part_append, h, Nat.zero_add]
  simpa using hd

theorem childrenAt_self : ChildrenAt n [] 0 n.inner := childrenAt_inner Node.part_nil

theorem ChildrenAt.head (h : ChildrenAt n p start (c :: cs)) : n.part? (p ++ [start]) = some c := h 0 c rfl

theorem ChildrenAt.tail (h : ChildrenAt n p start (c :: cs)) : ChildrenAt n p (start + 1) cs := by
  intro i d hd
  rw [Nat.add_assoc, Nat.add_comm 1 i]
  exact h (i + 1) d hd

theorem childParts_succ :
    childParts p start (count + 1) = .expr (p ++ [start]) :: childParts p (start + 1) count := by
  simp [childParts, List.range'_succ]

end ObjcLowering.Lowering
