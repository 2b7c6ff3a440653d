import ObjcLowering.Binary64
import ObjcLowering.Fault
import ObjcLowering.Text.Basic

namespace ObjcLowering

inductive Json
  | null
  | bool (b : Bool)
  | int (n : Int)
  | real (x : Binary64)
  | text (s : String)
  | codes (points : List Nat)
  | list (items : List Json)
  | object (members : List (String × Json))
  deriving Inhabited, Repr

namespace Json

mutual

def same : Json → Json → Bool
  | null, null => true
  | bool a, bool b => a == b
  | int a, int b => a == b
  | real a, real b => a == b
  | text a, text b => a == b
  | codes a, codes b => a == b
  | list a, list b => sameItems a b
  | object a, object b => sameMembers a b
  | _, _ => false

def sameItems : List Json → List Json → Bool
  | [], [] => true
  | a :: as, b :: bs => same a b && sameItems as bs
  | _, _ => false

def sameMembers : List (String × Json) → List (String × Json) → Bool
  | [], [] => true
  | (n, a) :: as, (m, b) :: bs => n == m && (same a b && sameMembers as bs)
  | _, _ => false

end

mutual

theorem same_iff : (a b : Json) → same a b = true ↔ a = b
  | null, b => by cases b <;> simp [same]
  | bool a, b => by cases b <;> simp [same]
  | int a, b => by cases b <;> simp [same]
  | real a, b => by cases b <;> simp [same]
  | text a, b => by cases b <;> simp [same]
  | codes a, b => by cases b <;> simp [same]
  | list a, b => by cases b <;> simp [same, sameItems_iff a]
  | object a, b => by cases b <;> simp [same, sameMembers_iff a]

theorem sameItems_iff : (a b : List Json) → sameItems a b = true ↔ a = b
  | [], b => by cases b <;> simp [sameItems]
  | x :: xs, b => by cases b <;> simp [sameItems, same_iff x, sameItems_iff xs]

theorem sameMembers_iff : (a b : List (String × Json)) → sameMembers a b = true ↔ a = b
  | [], b => by cases b <;> simp [sameMembers]
  | (n, x) :: xs, b => by
    cases b with
    | nil => simp [sameMembers]
    | cons p ps => obtain ⟨m, y⟩ := p; simp [sameMembers, same_iff x, sameMembers_iff xs, and_assoc]

end

instance : DecidableEq Json := fun a b =>
  if h : same a b = true then .isTrue ((same_iff a b).mp h)
  else .isFalse fun e => h ((same_iff a b).mpr e)

instance : Coe String Json := ⟨text⟩

def setMember (name : String) (value : Json) : List (String × Json) → List (String × Json)
  | [] => [(name, value)]
  | (n, v) :: rest => if n = name then (n, value) :: rest else (n, v) :: setMember name value rest

def member? (name : String) : Json → Option Json
  | object members => members.lookup name
  | _ => none

def member (j : Json) (name : String) : Json := (j.member? name).getD null

def text? : Json → Option String
  | text s => some s
  | _ => none

def int? : Json → Option Int
  | int n => some n
  | _ => none

def items : Json → List Json
  | list xs => xs
  | _ => []

/-- The values that one meets in going through a value: the items of a list, the characters of a text,
the names of an object. -/
def elements : Json → Except Fault (List Json)
  | list xs => .ok xs
  | text s => .ok (s.toList.map fun c => text (String.singleton c))
  | codes cs => .ok (cs.map fun c => codes [c])
  | object ms => .ok (ms.map fun m => text m.1)
  | _ => .error .wrongValue

def members : Json → List (String × Json)
  | object ms => ms
  | _ => []

def holds : Json → Bool
  | null => false
  | bool b => b
  | int n => n != 0
  | real x => !x.isZero
  | text s => !s.isEmpty
  | codes cs => !cs.isEmpty
  | list xs => !xs.isEmpty
  | object ms => !ms.isEmpty

def isText : Json → Bool
  | text _ => true
  | _ => false

def textOr (f : Fault) : Json → Except Fault String
  | text s => .ok s
  | _ => .error f

def isKey : Json → Bool
  | list _ => false
  | object _ => false
  | _ => true

def asKey (j : Json) : Except Fault Json := if j.isKey then .ok j else .error .wrongValue

/-- Whether a text occurs in a value: inside a text, among the items of a list or the names of an
object. -/
def mentions (piece : String) : Json → Except Fault Bool
  | text s => .ok (Text.has piece s)
  | list xs => .ok (xs.contains (text piece))
  | object ms => .ok (ms.any fun m => m.1 == piece)
  | _ => .error .wrongValue

def count? : Json → Option Int
  | int n => some n
  | bool b => some (if b then 1 else 0)
  | _ => none

end Json

end ObjcLowering
