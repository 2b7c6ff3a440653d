import ObjcLowering.Json.Writer
import ObjcLowering.Text.Printable

namespace ObjcLowering.Json

def hexDigits (width n : Nat) : List Char :=
  let digits := Nat.toDigits 16 n
  List.replicate (width - digits.length) '0' ++ digits

def codeNumber (n : Nat) : List Char :=
  if n < 0x100 then '\\' :: 'x' :: hexDigits 2 n
  else if n < 0x10000 then '\\' :: 'u' :: hexDigits 4 n
  else '\\' :: 'U' :: hexDigits 8 n

def shownCode (quote : Char) (n : Nat) : List Char :=
  if n = 0x5C then ['\\', '\\']
  else if n = quote.toNat then ['\\', quote]
  else if n = 0xA then ['\\', 'n']
  else if n = 0xD then ['\\', 'r']
  else if n = 0x9 then ['\\', 't']
  else if n.isValidChar && Text.isPrintable (Char.ofNat n) then [Char.ofNat n]
  else codeNumber n

def shownCodes (points : List Nat) : String :=
  let quote := if points.contains 0x27 && !points.contains 0x22 then '"' else '\''
  .ofList (quote :: points.flatMap (shownCode quote) ++ [quote])

def shownText (s : String) : String := shownCodes (s.toList.map Char.toNat)

mutual

def shown : Json → String
  | null => "None"
  | bool true => "True"
  | bool false => "False"
  | int n => toString n
  | real x => realText "inf" "nan" x
  | text s => shownText s
  | codes cs => shownCodes cs
  | list xs => "[" ++ Text.join ", " (shownItems xs) ++ "]"
  | object ms => "\x7b" ++ Text.join ", " (shownMembers ms) ++ "\x7d"

def shownItems : List Json → List String
  | [] => []
  | x :: xs => shown x :: shownItems xs

def shownMembers : List (String × Json) → List String
  | [] => []
  | (name, x) :: ms => (shownText name ++ ": " ++ shown x) :: shownMembers ms

end

def plain : Json → String
  | text s => s
  | j => j.shown

instance : ToString Json := ⟨plain⟩

end ObjcLowering.Json
