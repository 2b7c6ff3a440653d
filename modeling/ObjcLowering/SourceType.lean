import ObjcLowering.Json.Display

namespace ObjcLowering

def ownershipQualifiers : List String :=
  ["__strong", "__weak", "__unsafe_unretained", "__autoreleasing", "_Nonnull", "_Nullable",
   "__kindof"]

namespace TypeChars

def isAngle (c : Char) : Bool := c = '<' || c = '>'

/-- Adds a character to a text without bracket groups, of which the end comes first. A closing bracket
removes the group that it completes; a pair without anything between them is no group. -/
def addOutsideGroups (back : List Char) (c : Char) : List Char :=
  if c = '>' then
    match back.takeWhile (!isAngle ·), back.dropWhile (!isAngle ·) with
    | _ :: _, '<' :: front => front
    | _, _ => c :: back
  else c :: back

/-- Removes the bracket groups `<…>` that enclose some text, innermost first, until none is left. -/
def eraseGroups (s : List Char) : List Char := (s.foldl addOutsideGroups []).reverse

def eraseQualifiers (s : List Char) : List Char :=
  ownershipQualifiers.foldl (fun s q => Text.Chars.replace q.toList [] s) s

def strip (s : List Char) : List Char := Text.Chars.trim (eraseGroups (eraseQualifiers s))

def blockMark : List Char := ['(', '^', ')']

def isBlock (t : List Char) : Bool := Text.Chars.has blockMark t

def dropWord (t : List Char) (word : String) : List Char :=
  if word.toList.isSuffixOf t then Text.Chars.trimRight (t.take (t.length - word.toList.length))
  else t

def isObject (t : List Char) : Bool :=
  if isBlock t then false
  else if t = "id".toList || t = "instancetype".toList then true
  else
    let bare := ["const", "volatile", "restrict"].foldl dropWord t
    match bare with
    | [] => false
    | c :: _ =>
      "*".toList.isSuffixOf bare && Text.isUpper c
        && Text.Chars.trimRightBy (fun c => c = ' ' || c = '*') bare != "BOOL".toList

def structPointer (t : List Char) : List Char :=
  let name := Text.Chars.trimRight (t.takeWhile (· != '*'))
  let suffix := Text.Chars.trim ((t.dropWhile (· != '*')).drop 1)
  "struct ".toList ++ name ++ " *".toList ++ suffix

def blockParams (s : List Char) : List (List Char) :=
  match Text.Chars.trim s with
  | '(' :: rest =>
    if ")".toList.isSuffixOf rest then
      let inside := rest.dropLast
      if (Text.Chars.trim inside).isEmpty then []
      else (Text.Chars.splitBy ',' inside).map Text.Chars.trim
    else []
  | _ => []

def joinChars (sep : List Char) (parts : List (List Char)) : List Char := sep.intercalate parts

/-- The C type of a type. A block type contains its result and its parameters as shorter types, so
`fuel` above the length suffices. -/
def toC : (fuel : Nat) → List Char → List Char
  | 0, s => strip s
  | fuel + 1, s =>
    let t := strip s
    match Text.Chars.cut? blockMark t with
    | some (result, rest) =>
      let result := Text.Chars.trim result
      let result := if result.isEmpty then "void".toList else toC fuel result
      let params := blockParams rest
      let params :=
        if params.isEmpty then "void".toList else joinChars ", ".toList (params.map (toC fuel))
      result ++ " (*)(".toList ++ params ++ ")".toList
    | none =>
      if t = "id".toList || t = "instancetype".toList then "struct OZObject *".toList
      else if t = "id *".toList then "struct OZObject **".toList
      else if isObject t then structPointer t
      else t

def cutLastClosing? (s : List Char) : Option (List Char × List Char) :=
  let back := s.reverse
  match back.dropWhile (· != '>') with
  | _ :: inner => some (inner.reverse, (back.takeWhile (· != '>')).reverse)
  | [] => none

/-- Splits at the commas that stand outside all brackets; `part` is the current part in reverse. -/
def splitArguments : (depth : Int) → (part : List Char) → List Char → List (List Char)
  | _, part, [] => [Text.Chars.trim part.reverse]
  | depth, part, c :: s =>
    if c = '<' then splitArguments (depth + 1) (c :: part) s
    else if c = '>' then splitArguments (depth - 1) (c :: part) s
    else if c = ',' && depth == 0 then Text.Chars.trim part.reverse :: splitArguments depth [] s
    else splitArguments depth (c :: part) s

def isNameStart (c : Char) : Bool := c.isAlpha || c = '_'

/-- The text between the outermost brackets after a class name, at most a star following them. -/
def argumentText? (t : List Char) : Option (List Char) :=
  match t with
  | [] => none
  | c :: s =>
    if !isNameStart c then none
    else
      match Text.Chars.trimLeft (s.dropWhile Text.isWord) with
      | '<' :: rest =>
        match cutLastClosing? rest with
        | some (inner, tail) =>
          let tail := Text.Chars.trimLeft tail
          if (tail.isEmpty || tail = ['*']) && !inner.isEmpty && !inner.contains '\n' then some inner
          else none
        | none => none
      | _ => none

end TypeChars

structure SourceType where
  raw : Json
  deriving DecidableEq, Inhabited, Repr

namespace SourceType

open TypeChars

def spelling (t : SourceType) : String := t.raw.text?.getD ""

def checked (t : SourceType) : Except Fault SourceType :=
  if t.raw.isText then .ok t else .error .unfit

def stripped (t : SourceType) : String := .ofList (strip t.spelling.toList)

def isBlock (t : SourceType) : Bool := TypeChars.isBlock (strip t.spelling.toList)

def isObject (t : SourceType) : Bool := TypeChars.isObject (strip t.spelling.toList)

def isUnretained (t : SourceType) : Bool := Text.has "__unsafe_unretained" t.spelling

def isStrongObject (t : SourceType) : Bool := t.isObject && !t.isUnretained

def isVoid (t : SourceType) : Bool := t.stripped == "void"

def cType (t : SourceType) : String := .ofList (toC (t.spelling.length + 1) t.spelling.toList)

/-- The declaration of a name with this type in C: inside a function pointer, or before the bounds
of an array. -/
def declare (t : SourceType) (name : Json) : String :=
  let c := t.cType
  if t.isBlock && Text.has "(*)" c then Text.replaceFirst "(*)" ("(*" ++ name.plain ++ ")") c
  else
    match Text.cut? "[" c with
    | some (base, bounds) =>
      if bounds.isEmpty || c.toList.contains '\n' then c ++ " " ++ name.plain
      else Text.trimRight base ++ " " ++ name.plain ++ "[" ++ bounds
    | none => c ++ " " ++ name.plain

def typeArguments (t : SourceType) : List String :=
  match argumentText? (Text.Chars.trim (eraseQualifiers t.spelling.toList)) with
  | some inner => (splitArguments 0 [] (Text.Chars.trim inner)).map .ofList
  | none => []

end SourceType

end ObjcLowering
