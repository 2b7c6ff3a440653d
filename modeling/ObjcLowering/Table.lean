namespace ObjcLowering

universe u v

structure Table (κ : Type) (α : Type u) where
  entries : List (κ × α) := []
  deriving Inhabited, Repr

namespace Table

variable {κ : Type} [DecidableEq κ] {α : Type u} {β : Type v}

def empty : Table κ α := {}

def names (t : Table κ α) : List κ := t.entries.map (·.1)

def values (t : Table κ α) : List α := t.entries.map (·.2)

def find? (t : Table κ α) (name : κ) : Option α := t.entries.lookup name

def has (t : Table κ α) (name : κ) : Bool := (t.find? name).isSome

def isEmpty (t : Table κ α) : Bool := t.entries.isEmpty

def setIn (name : κ) (value : α) : List (κ × α) → List (κ × α)
  | [] => [(name, value)]
  | (n, v) :: rest => if n = name then (n, value) :: rest else (n, v) :: setIn name value rest

def set (t : Table κ α) (name : κ) (value : α) : Table κ α := ⟨setIn name value t.entries⟩

def modify (t : Table κ α) (name : κ) (f : α → α) : Table κ α :=
  ⟨t.entries.map fun (n, v) => if n = name then (n, f v) else (n, v)⟩

def erase (t : Table κ α) (name : κ) : Table κ α :=
  ⟨t.entries.filter fun (n, _) => n != name⟩

def mapValues (t : Table κ α) (f : α → β) : Table κ β := ⟨t.entries.map fun (n, v) => (n, f v)⟩

def ofList (entries : List (κ × α)) : Table κ α :=
  entries.foldl (fun t (n, v) => t.set n v) empty

def merge (t u : Table κ α) : Table κ α := u.entries.foldl (fun t (n, v) => t.set n v) t

def bump (t : Table κ Int) (name : κ) (n : Int) : Table κ Int :=
  t.set name ((t.find? name).getD 0 + n)

end Table

def distinctFrom {α : Type u} [BEq α] : (seen : List α) → List α → List α
  | _, [] => []
  | seen, x :: xs => if seen.contains x then distinctFrom seen xs else x :: distinctFrom (x :: seen) xs

def distinct {α : Type u} [BEq α] (xs : List α) : List α := distinctFrom [] xs

def addNew {α : Type u} [BEq α] (xs : List α) (x : α) : List α :=
  if xs.contains x then xs else xs ++ [x]

def addAllNew {α : Type u} [BEq α] (xs ys : List α) : List α := ys.foldl addNew xs

def sortByName {α : Type u} (name : α → String) (xs : List α) : List α :=
  xs.mergeSort fun a b => !decide (name b < name a)

def sortNames (xs : List String) : List String := sortByName id xs

end ObjcLowering
