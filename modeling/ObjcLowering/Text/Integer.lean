import ObjcLowering.Text.Basic

namespace ObjcLowering.Text.Integer

/-- Blanks around a number; the separators U+001C to U+001F do not count. -/
def isMargin (c : Char) : Bool := isBlank c && !(0x1C ≤ c.toNat && c.toNat ≤ 0x1F)

def digitsFrom (acc : Nat) : List Char → Option Nat
  | [] => some acc
  | '_' :: c :: s => (digitValue? c).bind fun d => digitsFrom (acc * 10 + d) s
  | c :: s => (digitValue? c).bind fun d => digitsFrom (acc * 10 + d) s

def maxDigits : Nat := 4300

def natural? : List Char → Option Nat
  | [] => none
  | c :: s =>
    if maxDigits ≤ s.countP (· != '_') then none
    else (digitValue? c).bind fun d => digitsFrom d s

def ofChars? (s : List Char) : Option Int :=
  match Chars.trimRightBy isMargin (s.dropWhile isMargin) with
  | '-' :: digits => (natural? digits).map fun n => -(n : Int)
  | '+' :: digits => (natural? digits).map Int.ofNat
  | digits => (natural? digits).map Int.ofNat

end ObjcLowering.Text.Integer

namespace ObjcLowering.Text

def integer? (s : String) : Option Int := Integer.ofChars? s.toList

end ObjcLowering.Text
