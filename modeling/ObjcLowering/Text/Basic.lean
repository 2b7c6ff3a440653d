import ObjcLowering.Text.Runs

namespace ObjcLowering.Text

def blankRanges : List (Nat × Nat) :=
  [(0x9, 0xD), (0x1C, 0x20), (0x85, 0x85), (0xA0, 0xA0), (0x1680, 0x1680), (0x2000, 0x200A),
   (0x2028, 0x2029), (0x202F, 0x202F), (0x205F, 0x205F), (0x3000, 0x3000)]

def isBlank (c : Char) : Bool := inRanges blankRanges c

namespace Chars

def trimLeft (s : List Char) : List Char := s.dropWhile isBlank

def trimRightBy (p : Char → Bool) (s : List Char) : List Char := (s.reverse.dropWhile p).reverse

def trimRight (s : List Char) : List Char := trimRightBy isBlank s

def trim (s : List Char) : List Char := trimRight (trimLeft s)

def after? : (p s : List Char) → Option (List Char)
  | [], s => some s
  | _ :: _, [] => none
  | a :: p, b :: s => if a = b then after? p s else none

def cut? (p : List Char) : List Char → Option (List Char × List Char)
  | [] => if p.isEmpty then some ([], []) else none
  | c :: s =>
    match after? p (c :: s) with
    | some rest => some ([], rest)
    | none => (cut? p s).map fun (a, b) => (c :: a, b)

def has (p s : List Char) : Bool := (cut? p s).isSome

/-- Writes `r` for each occurrence of `p` from left to right; `skip` characters of an occurrence are
still to be passed over. -/
def replaceFrom (p r : List Char) : (skip : Nat) → List Char → List Char
  | _, [] => []
  | k + 1, _ :: s => replaceFrom p r k s
  | 0, c :: s =>
    if p.isPrefixOf (c :: s) then r ++ replaceFrom p r (p.length - 1) s
    else c :: replaceFrom p r 0 s

def replace (p r s : List Char) : List Char :=
  if p.isEmpty then s else replaceFrom p r 0 s

/-- The parts between the occurrences of `p`; `skip` as in `replaceFrom`. -/
def splitFrom (p : List Char) : (skip : Nat) → List Char → List (List Char)
  | _, [] => [[]]
  | k + 1, _ :: s => splitFrom p k s
  | 0, c :: s =>
    if p.isPrefixOf (c :: s) then [] :: splitFrom p (p.length - 1) s
    else
      match splitFrom p 0 s with
      | [] => [[c]]
      | part :: parts => (c :: part) :: parts

def splitBy (sep : Char) : List Char → List (List Char)
  | [] => [[]]
  | c :: s =>
    if c = sep then [] :: splitBy sep s
    else
      match splitBy sep s with
      | [] => [[c]]
      | part :: parts => (c :: part) :: parts

def endsLine (c : Char) : Bool :=
  (0xA ≤ c.toNat && c.toNat ≤ 0xD) || (0x1C ≤ c.toNat && c.toNat ≤ 0x1E)
    || c.toNat = 0x85 || c.toNat = 0x2028 || c.toNat = 0x2029

/-- The lines of a text, `line` being the beginning of the current one in reverse. A line end after
the last line opens no further line. -/
def linesFrom : (line : List Char) → List Char → List (List Char)
  | [], [] => []
  | line, [] => [line.reverse]
  | line, '\r' :: '\n' :: s => line.reverse :: linesFrom [] s
  | line, c :: s => if endsLine c then line.reverse :: linesFrom [] s else linesFrom (c :: line) s

def unifyNewlines : List Char → List Char
  | [] => []
  | '\r' :: '\n' :: s => '\n' :: unifyNewlines s
  | c :: s => (if c = '\r' then '\n' else c) :: unifyNewlines s

end Chars

def trim (s : String) : String := .ofList (Chars.trim s.toList)

def trimLeft (s : String) : String := .ofList (Chars.trimLeft s.toList)

def trimRight (s : String) : String := .ofList (Chars.trimRight s.toList)

def trimRightBy (p : Char → Bool) (s : String) : String := .ofList (Chars.trimRightBy p s.toList)

def begins (p s : String) : Bool := p.toList.isPrefixOf s.toList

def ends (p s : String) : Bool := p.toList.isSuffixOf s.toList

def after? (p s : String) : Option String := (Chars.after? p.toList s.toList).map .ofList

def dropEnd (n : Nat) (s : String) : String := .ofList (s.toList.take (s.toList.length - n))

def dropFront (n : Nat) (s : String) : String := .ofList (s.toList.drop n)

def cut? (p s : String) : Option (String × String) :=
  (Chars.cut? p.toList s.toList).map fun (a, b) => (.ofList a, .ofList b)

def before (p s : String) : String := ((cut? p s).map (·.1)).getD s

def has (p s : String) : Bool := Chars.has p.toList s.toList

def replace (p r s : String) : String := .ofList (Chars.replace p.toList r.toList s.toList)

def replaceFirst (p r s : String) : String :=
  match cut? p s with
  | some (a, b) => a ++ r ++ b
  | none => s

def splitBy (sep : Char) (s : String) : List String := (Chars.splitBy sep s.toList).map .ofList

def splitOn (p s : String) : List String :=
  if p.isEmpty then [s] else (Chars.splitFrom p.toList 0 s.toList).map .ofList

def lines (s : String) : List String := (Chars.linesFrom [] s.toList).map .ofList

def unifyNewlines (s : String) : String := .ofList (Chars.unifyNewlines s.toList)

def join (sep : String) (parts : List String) : String := sep.intercalate parts

def copies (n : Nat) (s : String) : String := String.join (List.replicate n s)

def tabs (n : Nat) : String := .ofList (List.replicate n '\t')

def padLeft (width : Nat) (s : String) : String :=
  .ofList (List.replicate (width - s.toList.length) ' ') ++ s

def padRight (width : Nat) (s : String) : String :=
  s ++ .ofList (List.replicate (width - s.toList.length) ' ')

/-- Lower-case forms of the ASCII letters; enough to look for an ASCII word in any letter case. -/
def lowerAscii (s : String) : String := .ofList (s.toList.map Char.toLower)

end ObjcLowering.Text
