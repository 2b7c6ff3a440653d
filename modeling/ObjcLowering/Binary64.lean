namespace ObjcLowering

inductive Binary64
  /-- The number `significand * 2 ^ exponent`, with a sign also for zero. -/
  | finite (negative : Bool) (significand : Nat) (exponent : Int)
  | infinite (negative : Bool)
  | undefined
  deriving DecidableEq, Inhabited, Repr

namespace Binary64

/-- The integer nearest to a fraction; a half goes to the even neighbour. -/
def roundDiv (num den : Nat) : Nat :=
  let q := num / den
  let r := num % den
  if 2 * r < den then q else if den < 2 * r then q + 1 else q + q % 2

def scale (base num den : Nat) (k : Int) : Nat × Nat :=
  if 0 ≤ k then (num * base.pow k.toNat, den) else (num, den * base.pow (-k).toNat)

/-- The exponent of the largest power of two that is at most `num / den`. -/
def binaryOrder (num den : Nat) : Int :=
  let k : Int := num.log2 - den.log2
  let (a, b) := scale 2 num den (-k)
  if b ≤ a then k else k - 1

def leastExponent : Int := -1074

def greatestExponent : Int := 971

def nearest (negative : Bool) (num den : Nat) : Binary64 :=
  if num = 0 then finite negative 0 leastExponent
  else
    let e := max (binaryOrder num den - 52) leastExponent
    let (a, b) := scale 2 num den (-e)
    let m := roundDiv a b
    let (m, e) := if m = Nat.pow 2 53 then (Nat.pow 2 52, e + 1) else (m, e)
    if greatestExponent < e then infinite negative else finite negative m e

/-- The number nearest to `digits * 10 ^ power`. Far beyond the range of the format the digits no
longer matter. -/
def ofDecimal (negative : Bool) (digits : Nat) (power : Int) : Binary64 :=
  let top : Int := (Nat.toDigits 10 digits).length + power
  if digits = 0 || top < -400 then finite negative 0 leastExponent
  else if 400 < top then infinite negative
  else
    let (num, den) := scale 10 digits 1 power
    nearest negative num den

def ofNat (n : Nat) : Binary64 := nearest false n 1

def isZero : Binary64 → Bool
  | finite _ m _ => m = 0
  | _ => false

def isNegative : Binary64 → Bool
  | finite s _ _ => s
  | infinite s => s
  | undefined => false

def toRat? : Binary64 → Option Rat
  | finite s m e =>
    let (num, den) := scale 2 m 1 e
    some (mkRat (if s then -(num : Int) else num) den)
  | _ => none

/-- The number nearest to a quotient of positive numbers; infinite when one of them is. -/
def quotient : Binary64 → Binary64 → Binary64
  | finite _ m e, finite _ n f =>
    let (num, den) := scale 2 m n (e - f)
    nearest false num den
  | _, _ => infinite false

def ceil : Binary64 → Nat
  | finite _ m e =>
    let (num, den) := scale 2 m 1 e
    (num + (den - 1)) / den
  | _ => 0

def decimalOrder (num den : Nat) : Int :=
  if den ≤ num then ((Nat.toDigits 10 (num / den)).length : Int) - 1
  else
    let places := (Nat.toDigits 10 (den / num)).length
    if num * Nat.pow 10 (places - 1) = den then 1 - (places : Int) else -places

/-- The decimals with `n` digits next to `num / den`, the nearest first, each as `digits * 10 ^ power`. -/
def neighbours (num den n : Nat) : List (Nat × Int) :=
  let power := decimalOrder num den + 1 - n
  let (a, b) := scale 10 num den (-power)
  let near := roundDiv a b
  let other := if a < near * b then near - 1 else near + 1
  [(near, power), (other, power)]

/-- The decimal with the fewest digits, as `digits * 10 ^ power`, that is nearest to a positive number
among those that read back as it. Seventeen digits are enough for any number. -/
def shortest (significand : Nat) (exponent : Int) : Nat × Int :=
  let (num, den) := scale 2 significand 1 exponent
  let readsBack := fun (d : Nat × Int) => ofDecimal false d.1 d.2 = finite false significand exponent
  let found := (List.range 17).findSome? fun n => (neighbours num den (n + 1)).find? readsBack
  found.getD (0, 0)

end Binary64

end ObjcLowering
