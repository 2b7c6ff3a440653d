import ObjcLowering.Lowering.Context
import ObjcLowering.Source.Reading

namespace ObjcLowering.Lowering

open Ast

abbrev Bytes := List UInt8

def bytesOf (s : String) : Bytes := s.toUTF8.toList

def decode (bs : Bytes) : Except Fault String :=
  match String.fromUTF8? bs.toByteArray with
  | some s => .ok s
  | none => .error .cutCharacter

def placeIn (size : Nat) (i : Int) : Nat := if i < 0 then (size + i).toNat else min i.toNat size

def Bytes.slice (bs : Bytes) (start stop : Int) : Bytes :=
  (bs.take (placeIn bs.length stop)).drop (placeIn bs.length start)

def openParen : UInt8 := 0x28

def closeParen : UInt8 := 0x29

def isArgumentBlank (b : UInt8) : Bool := b = 0x20 || b = 0x09 || b = 0x0A || b = 0x0D

/-- How many bytes there are up to the parenthesis that closes the last of `depth` open ones; all when
none does. -/
def closedLength : (depth : Nat) → Bytes → Nat
  | 0, _ => 0
  | _ + 1, [] => 0
  | d + 1, b :: bs =>
    closedLength (if b = openParen then d + 2 else if b = closeParen then d else d + 1) bs + 1

def argumentLength (bs : Bytes) : Nat :=
  match bs.dropWhile isArgumentBlank with
  | b :: rest =>
    if b = openParen then (bs.takeWhile isArgumentBlank).length + 1 + closedLength 1 rest else 0
  | [] => 0

def macroText (source : String) (offset length : Int) : Except Fault String :=
  let bs := bytesOf source
  let stop := offset + length
  decode (bs.slice offset (stop + argumentLength (bs.slice stop bs.length)))

def literalKinds : List String :=
  ["IntegerLiteral", "FloatingLiteral", "CharacterLiteral", "ObjCBoolLiteralExpr", "GNUNullExpr",
   "CXXNullPtrLiteralExpr", "CXXBoolLiteralExpr"]

mutual

def isTrivialExpansion : Node → Bool
  | .mk a ns =>
    literalKinds.contains a.kind
      || (["ImplicitCastExpr", "CStyleCastExpr", "ParenExpr"].contains a.kind && isOneTrivial ns)

def isOneTrivial : List Node → Bool
  | [n] => isTrivialExpansion n
  | _ => false

end

def patchedKinds : List String :=
  ["ObjCMessageExpr", "ObjCIvarRefExpr", "ObjCStringLiteral", "ObjCArrayLiteral",
   "ObjCDictionaryLiteral", "ObjCBoxedExpr", "ObjCSelectorExpr", "ObjCProtocolExpr",
   "PseudoObjectExpr"]

structure Patch where
  start : Int
  stop : Int
  text : String
  deriving DecidableEq, Inhabited, Repr

def byteCount (j : Json) : Except Fault Int :=
  match j.count? with
  | some n => .ok n
  | none => .error .wrongValue

def spelledRange? (a : Attrs) : Except Fault (Option (Int × Int)) := do
  let range ← a.range.get
  let first ← range.first.get
  let last ← range.last.get
  if !patchedKinds.contains a.kind then return none
  match (← first.spelling.get).offset.filter (· != .null) with
  | none => return none
  | some start =>
    let last ← last.spelling.get
    let stop := (← byteCount (last.offset.getD start)) + (← byteCount (last.tokLen.getD (.int 1)))
    return some (← byteCount start, stop)

mutual

/-- The patches for the arguments in a tree, relative to the offset of the macro, and the ranges
seen: each range is patched once. -/
def patchesIn (expr : Node → Lower String) (offset : Int) (seen : List (Int × Int)) :
    Node → Lower (List Patch × List (Int × Int))
  | .mk a ns => do
    match ← spelledRange? a with
    | some range =>
      if seen.contains range then patchesInAll expr offset seen ns
      else do
        let text ← expr (.mk a ns)
        return ([⟨range.1 - offset, range.2 - offset, text⟩], range :: seen)
    | none => patchesInAll expr offset seen ns

def patchesInAll (expr : Node → Lower String) (offset : Int) (seen : List (Int × Int)) :
    List Node → Lower (List Patch × List (Int × Int))
  | [] => return ([], seen)
  | n :: ns => do
    let (first, seen) ← patchesIn expr offset seen n
    let (others, seen) ← patchesInAll expr offset seen ns
    return (first ++ others, seen)

end

def Patch.apply (bs : Bytes) (p : Patch) : Bytes :=
  if 0 ≤ p.start && p.start < p.stop && p.stop ≤ bs.length then
    bs.take p.start.toNat ++ bytesOf p.text ++ bs.drop p.stop.toNat
  else bs

/-- Applies patches from the back, so that the offsets of the others stay right. -/
def applyPatches (text : String) (ps : List Patch) : Except Fault String :=
  let back := ps.mergeSort fun p q => q.start < p.start || (q.start == p.start && q.stop ≤ p.stop)
  decode (back.foldl Patch.apply (bytesOf text))

def expansion? (p : Place) : Except Fault (Option Spot) :=
  if p.expansion.holds (·.isStated) then do return some (← p.expansion.get) else .ok none

def macroUse? (n : Node) : Except Fault (Option (Json × Json)) := do
  match ← expansion? (← n.firstPlace) with
  | some spot =>
    if spot.macroArgument then return none
    match spot.offset.filter (· != .null), spot.tokLen.filter (· != .null) with
    | some offset, some length => return some (offset, length)
    | _, _ => return none
  | none => return none

def isSpeltInIncluded (n : Node) : Except Fault Bool := do
  return (← (← n.firstPlace).spelling.get).includedFrom.holds (·.isStated)

def copyMacro (expr : Node → Lower String) (source : String) (n : Node) (offset length : Json) :
    Lower (Option String) := do
  let offset ← byteCount offset
  let length ← byteCount length
  let text ← macroText source offset length
  let isIncluded ← isSpeltInIncluded n
  if isIncluded && !(length < text.toList.length) && isTrivialExpansion n then return none
  else
    let (patches, _) ← patchesIn expr offset [] n
    return some (← applyPatches text patches)

def copyExpr? (expr : Node → Lower String) (n : Node) : Lower (Option String) := do
  match (← read).source with
  | some source =>
    match ← macroUse? n with
    | some (offset, length) => copyMacro expr source n offset length
    | none => return none
  | none => return none

def endsInMacro (n : Node) : Except Fault Bool := do
  return (← n.lastPlace).expansion.holds (·.isStated)

def copyStmt? (expr : Node → Lower String) (n : Node) : Lower (Option String) := do
  match ← macroUse? n with
  | some (offset, length) =>
    if !(← endsInMacro n) then return none
    match (← read).source with
    | some source => copyMacro expr source n offset length
    | none =>
      warn ("warning: macro-expanded statement cannot be preserved "
        ++ "(source unavailable) — reconstructing from AST")
      return none
  | none => return none

end ObjcLowering.Lowering
