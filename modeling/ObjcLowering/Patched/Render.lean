import ObjcLowering.Fault
import ObjcLowering.Table
import ObjcLowering.Text.Basic

namespace ObjcLowering.Patched

inductive Token
  | data (s : List Char)
  | value (key : String)
  | number (n : Nat)
  deriving Inhabited, Repr

def plainNumber? (digits : List Char) : Option Nat :=
  if digits.isEmpty || !digits.all Char.isDigit then none
  else if digits.head? == some '0' && digits.any (· != '0') then none
  else some (digits.foldl (fun n d => n * 10 + (d.toNat - 48)) 0)

def expression? (s : List Char) : Option Token :=
  let inside := Text.Chars.trim s
  match plainNumber? inside with
  | some n => some (.number n)
  | none =>
    match inside with
    | c :: _ =>
      if inside.all Text.isWord && (Text.digitValue? c).isNone then some (.value (.ofList inside))
      else none
    | [] => none

def dataToken (back : List Char) : List Token := if back.isEmpty then [] else [.data back.reverse]

/-- The text of a part that is kept as it is, and what follows its end mark. -/
def rawPart? (s : List Char) : Option (List Char × List Char) := do
  let s ← Text.Chars.after? ['r', 'a', 'w'] (Text.Chars.trimLeft s)
  let s ← Text.Chars.after? ['%', '\x7d'] (Text.Chars.trimLeft s)
  let (body, s) ← Text.Chars.cut? ['\x7b', '%'] s
  let s ← Text.Chars.after? ['e', 'n', 'd', 'r', 'a', 'w'] (Text.Chars.trimLeft s)
  let s ← Text.Chars.after? ['%', '\x7d'] (Text.Chars.trimLeft s)
  return (body, s)

/-- The form at the front of a text after an opening brace, and what follows it. The first item says
whether a form begins there at all. -/
def form? : List Char → Bool × Option (List Token × List Char)
  | '\x7b' :: s =>
    (true, do
      let (inside, rest) ← Text.Chars.cut? ['\x7d', '\x7d'] s
      return ([← expression? inside], rest))
  | '#' :: s => (true, (Text.Chars.cut? ['#', '\x7d'] s).map fun (_, rest) => ([], rest))
  | '%' :: s => (true, (rawPart? s).map fun (body, rest) => ([.data body], rest))
  | _ => (false, none)

/-- Reads an outline; `back` is the text since the last form in reverse, `skip` the number of
characters of the last form that are still to be passed over. -/
def tokensFrom : (skip : Nat) → (back : List Char) → List Char → Except Fault (List Token)
  | _, back, [] => .ok (dataToken back)
  | k + 1, back, _ :: s => tokensFrom k back s
  | 0, back, c :: s =>
    if c = '\x7b' then
      match form? s with
      | (false, _) => tokensFrom 0 (c :: back) s
      | (true, none) => .error .malformedTemplate
      | (true, some (found, rest)) => do
        let after ← tokensFrom (s.length - rest.length) [] s
        return dataToken back ++ found ++ after
    else tokensFrom 0 (c :: back) s

def normalizeLines (text : String) : List Char :=
  let s := Text.Chars.unifyNewlines text.toList
  if s.getLast? == some '\n' then s.dropLast else s

def fill (values : Table String String) : Token → Except Fault String
  | .data s => .ok (.ofList s)
  | .number n => .ok (toString n)
  | .value key =>
    match values.find? key with
    | some v => .ok v
    | none => .error .undefinedPlaceholder

def render (text : String) (values : Table String String) : Except Fault String := do
  let tokens ← tokensFrom 0 [] (normalizeLines text)
  return String.join (← tokens.mapM (fill values))

end ObjcLowering.Patched
