import ObjcLowering.Json.Basic

namespace ObjcLowering.Json

def isSpace (c : Char) : Bool := c = ' ' || c = '\n' || c = '\r' || c = '\t'

def skipSpace (s : List Char) : List Char := s.dropWhile isSpace

def hexValue? (c : Char) : Option Nat :=
  if '0' ≤ c && c ≤ '9' then some (c.toNat - '0'.toNat)
  else if 'a' ≤ c && c ≤ 'f' then some (c.toNat - 'a'.toNat + 10)
  else if 'A' ≤ c && c ≤ 'F' then some (c.toNat - 'A'.toNat + 10)
  else none

def unit? : List Char → Option (Nat × List Char)
  | a :: b :: c :: d :: s => do
    let a ← hexValue? a
    let b ← hexValue? b
    let c ← hexValue? c
    let d ← hexValue? d
    return (((a * 16 + b) * 16 + c) * 16 + d, s)
  | _ => none

def isHighSurrogate (n : Nat) : Bool := 0xD800 ≤ n && n < 0xDC00

def isLowSurrogate (n : Nat) : Bool := 0xDC00 ≤ n && n < 0xE000

/-- The code point of one or two UTF-16 units; a unit that stands alone is kept as it is. -/
def escaped? (s : List Char) : Option (Nat × List Char) := do
  let (n, rest) ← unit? s
  if isHighSurrogate n then
    match rest with
    | '\\' :: 'u' :: more =>
      match unit? more with
      | some (m, rest) =>
        if isLowSurrogate m then return (0x10000 + (n - 0xD800) * 0x400 + (m - 0xDC00), rest)
        else return (n, '\\' :: 'u' :: more)
      | none => none
    | _ => return (n, rest)
  else return (n, rest)

def ofCodes (points : List Nat) : Json :=
  if points.all fun n => decide (n.isValidChar) then text (.ofList (points.map Char.ofNat))
  else codes points

/-- The code points of the rest of a quoted text, `acc` being its beginning in reverse. Control
characters have to be escaped. -/
def quoted : Nat → (acc : List Nat) → List Char → Except Fault (List Nat × List Char)
  | 0, _, _ => .error .malformedJson
  | fuel + 1, acc, s =>
    match s with
    | [] => .error .malformedJson
    | '"' :: s => .ok (acc.reverse, s)
    | '\\' :: 'n' :: s => quoted fuel (0xA :: acc) s
    | '\\' :: 't' :: s => quoted fuel (0x9 :: acc) s
    | '\\' :: 'r' :: s => quoted fuel (0xD :: acc) s
    | '\\' :: 'b' :: s => quoted fuel (0x8 :: acc) s
    | '\\' :: 'f' :: s => quoted fuel (0xC :: acc) s
    | '\\' :: 'u' :: s =>
      match escaped? s with
      | some (c, s) => quoted fuel (c :: acc) s
      | none => .error .malformedJson
    | '\\' :: c :: s =>
      if c = '"' || c = '\\' || c = '/' then quoted fuel (c.toNat :: acc) s
      else .error .malformedJson
    | c :: s => if c.toNat < 0x20 then .error .malformedJson else quoted fuel (c.toNat :: acc) s

def isDigit (c : Char) : Bool := '0' ≤ c && c ≤ '9'

def digitsValue (ds : List Char) : Nat := ds.foldl (fun n d => n * 10 + (d.toNat - '0'.toNat)) 0

def wholeDigits (s : List Char) : List Char × List Char :=
  match s with
  | '0' :: rest => (['0'], rest)
  | _ => (s.takeWhile isDigit, s.dropWhile isDigit)

def fractionDigits (s : List Char) : List Char × List Char :=
  match s with
  | '.' :: rest =>
    if (rest.takeWhile isDigit).isEmpty then ([], s) else (rest.takeWhile isDigit, rest.dropWhile isDigit)
  | _ => ([], s)

def afterSign (s : List Char) : Bool × List Char :=
  match s with
  | '-' :: rest => (true, rest)
  | '+' :: rest => (false, rest)
  | _ => (false, s)

def exponent (s : List Char) : Option Int × List Char :=
  match s with
  | e :: rest =>
    let (negative, digits) := afterSign rest
    let power : Int := digitsValue (digits.takeWhile isDigit)
    if (e = 'e' || e = 'E') && !(digits.takeWhile isDigit).isEmpty then
      (some (if negative then -power else power), digits.dropWhile isDigit)
    else (none, s)
  | [] => (none, s)

def maxDigits : Nat := 4300

def unsigned (negative : Bool) (s : List Char) : Except Fault (Json × List Char) :=
  let (whole, s) := wholeDigits s
  if whole.isEmpty then .error .malformedJson
  else
    let (fraction, s) := fractionDigits s
    let (power, rest) := exponent s
    let digits := digitsValue (whole ++ fraction)
    if fraction.isEmpty && power.isNone then
      if maxDigits < whole.length then .error .malformedInteger
      else .ok (.int (if negative then -(digits : Int) else digits), rest)
    else .ok (.real (.ofDecimal negative digits (power.getD 0 - fraction.length)), rest)

def number (s : List Char) : Except Fault (Json × List Char) :=
  match Text.Chars.after? "NaN".toList s with
  | some rest => .ok (.real .undefined, rest)
  | none =>
    let (negative, s) := match s with
      | '-' :: rest => (true, rest)
      | _ => (false, s)
    match Text.Chars.after? "Infinity".toList s with
    | some rest => .ok (.real (.infinite negative), rest)
    | none => unsigned negative s

def nameOfCodes (points : List Nat) : String :=
  .ofList (points.map fun n => if decide (n.isValidChar) then Char.ofNat n else Char.ofNat 0xFFFD)

mutual

def value : Nat → List Char → Except Fault (Json × List Char)
  | 0, _ => .error .malformedJson
  | fuel + 1, s =>
    match skipSpace s with
    | 'n' :: 'u' :: 'l' :: 'l' :: s => .ok (.null, s)
    | 't' :: 'r' :: 'u' :: 'e' :: s => .ok (.bool true, s)
    | 'f' :: 'a' :: 'l' :: 's' :: 'e' :: s => .ok (.bool false, s)
    | '"' :: s => (quoted (fuel + 1) [] s).map fun (t, s) => (ofCodes t, s)
    | '[' :: s =>
      match skipSpace s with
      | ']' :: s => .ok (.list [], s)
      | s => (itemsFrom fuel [] s).map fun (xs, s) => (.list xs, s)
    | '\x7b' :: s =>
      match skipSpace s with
      | '\x7d' :: s => .ok (.object [], s)
      | s => (membersFrom fuel [] s).map fun (ms, s) => (.object ms, s)
    | s => number s

def itemsFrom : Nat → (acc : List Json) → List Char → Except Fault (List Json × List Char)
  | 0, _, _ => .error .malformedJson
  | fuel + 1, acc, s => do
    let (x, s) ← value fuel s
    match skipSpace s with
    | ',' :: s => itemsFrom fuel (x :: acc) s
    | ']' :: s => return ((x :: acc).reverse, s)
    | _ => throw .malformedJson

def membersFrom : Nat → (acc : List (String × Json)) → List Char →
    Except Fault (List (String × Json) × List Char)
  | 0, _, _ => .error .malformedJson
  | fuel + 1, acc, s =>
    match skipSpace s with
    | '"' :: s => do
      let (points, s) ← quoted (fuel + 1) [] s
      match skipSpace s with
      | ':' :: s =>
        let (x, s) ← value fuel s
        let ms := setMember (nameOfCodes points) x acc
        match skipSpace s with
        | ',' :: s => membersFrom fuel ms s
        | '\x7d' :: s => return (ms, s)
        | _ => throw .malformedJson
      | _ => throw .malformedJson
    | _ => .error .malformedJson

end

def ofText (s : String) : Except Fault Json := do
  let (j, rest) ← value (2 * s.length + 2) s.toList
  if (skipSpace rest).isEmpty then return j else throw .malformedJson

end ObjcLowering.Json
