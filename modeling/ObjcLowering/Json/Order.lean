import ObjcLowering.Json.Basic

namespace ObjcLowering.Json

def precedes : Json → Json → Bool
  | text a, text b => a < b
  | a, b =>
    match a.count?, b.count? with
    | some m, some n => m < n
    | _, _ => false

def areComparable (xs : List Json) : Bool :=
  xs.length ≤ 1 || xs.all isText || xs.all fun x => x.count?.isSome

def sortBy {α : Type} (name : α → Json) (xs : List α) : List α :=
  xs.mergeSort fun a b => !(name b).precedes (name a)

def sorted (xs : List Json) : Except Fault (List Json) :=
  if areComparable xs then .ok (sortBy id xs) else .error .wrongValue

end ObjcLowering.Json
