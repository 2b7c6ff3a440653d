import ObjcLowering.Json.Basic

namespace ObjcLowering.Json

def hex4 (n : Nat) : List Char :=
  let digits := Nat.toDigits 16 n
  List.replicate (4 - digits.length) '0' ++ digits

def escapeCode (n : Nat) : List Char :=
  if n = 0x22 then ['\\', '"']
  else if n = 0x5C then ['\\', '\\']
  else if n = 0xA then ['\\', 'n']
  else if n = 0xD then ['\\', 'r']
  else if n = 0x9 then ['\\', 't']
  else if n = 0x8 then ['\\', 'b']
  else if n = 0xC then ['\\', 'f']
  else if 0x20 ≤ n && n ≤ 0x7E then [Char.ofNat n]
  else if n < 0x10000 then '\\' :: 'u' :: hex4 n
  else
    let n := n - 0x10000
    '\\' :: 'u' :: hex4 (0xD800 + n / 0x400) ++ '\\' :: 'u' :: hex4 (0xDC00 + n % 0x400)

def quoteCodes (points : List Nat) : String := .ofList ('"' :: points.flatMap escapeCode ++ ['"'])

def quote (s : String) : String := quoteCodes (s.toList.map Char.toNat)

/-- The decimal `digits * 10 ^ power`: positional from `1e-4` up to `1e16`, else with an exponent. -/
def decimalText (digits : Nat) (power : Int) : List Char :=
  let all := Nat.toDigits 10 digits
  let kept := Text.Chars.trimRightBy (· == '0') all
  -- the value is 0.kept × 10 ^ point
  let point : Int := all.length + power
  if -4 < point && point ≤ 16 then
    if point ≤ 0 then '0' :: '.' :: List.replicate point.natAbs '0' ++ kept
    else
      let whole := point.toNat
      let front := kept.take whole ++ List.replicate (whole - kept.length) '0'
      let back := kept.drop whole
      front ++ '.' :: (if back.isEmpty then ['0'] else back)
  else
    let e := point - 1
    let places := Nat.toDigits 10 e.natAbs
    let mantissa := match kept with
      | [d] => [d]
      | d :: ds => d :: '.' :: ds
      | [] => ['0']
    mantissa ++ 'e' :: (if e < 0 then '-' else '+')
      :: (if places.length < 2 then '0' :: places else places)

/-- A number by the shortest decimal that reads back as it; `endless` stands for an infinite one and
`undefined` for none. -/
def realText (endless undefined : String) (x : Binary64) : String :=
  (if x.isNegative then "-" else "") ++
    match x with
    | .undefined => undefined
    | .infinite _ => endless
    | .finite _ 0 _ => "0.0"
    | .finite _ m e =>
      let (digits, power) := Binary64.shortest m e
      .ofList (decimalText digits power)

mutual

def inline : Json → String
  | null => "null"
  | bool true => "true"
  | bool false => "false"
  | int n => toString n
  | real x => realText "Infinity" "NaN" x
  | text s => quote s
  | codes cs => quoteCodes cs
  | list xs => "[" ++ Text.join ", " (inlineItems xs) ++ "]"
  | object ms => "\x7b" ++ Text.join ", " (inlineMembers ms) ++ "\x7d"

def inlineItems : List Json → List String
  | [] => []
  | x :: xs => inline x :: inlineItems xs

def inlineMembers : List (String × Json) → List String
  | [] => []
  | (name, x) :: ms => (quote name ++ ": " ++ inline x) :: inlineMembers ms

end

def lineAt (level : Nat) : String := "\n" ++ .ofList (List.replicate (2 * level) ' ')

mutual

def spread (level : Nat) : Json → String
  | null => "null"
  | bool true => "true"
  | bool false => "false"
  | int n => toString n
  | real x => realText "Infinity" "NaN" x
  | text s => quote s
  | codes cs => quoteCodes cs
  | list [] => "[]"
  | list (x :: xs) =>
    "[" ++ lineAt (level + 1)
      ++ Text.join ("," ++ lineAt (level + 1)) (spread (level + 1) x :: spreadItems (level + 1) xs)
      ++ lineAt level ++ "]"
  | object [] => "\x7b\x7d"
  | object ((name, x) :: ms) =>
    "\x7b" ++ lineAt (level + 1)
      ++ Text.join ("," ++ lineAt (level + 1))
        ((quote name ++ ": " ++ spread (level + 1) x) :: spreadMembers (level + 1) ms)
      ++ lineAt level ++ "\x7d"

def spreadItems (level : Nat) : List Json → List String
  | [] => []
  | x :: xs => spread level x :: spreadItems level xs

def spreadMembers (level : Nat) : List (String × Json) → List String
  | [] => []
  | (name, x) :: ms => (quote name ++ ": " ++ spread level x) :: spreadMembers level ms

end

end ObjcLowering.Json
