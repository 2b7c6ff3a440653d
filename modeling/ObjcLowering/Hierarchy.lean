import ObjcLowering.Json.Order
import ObjcLowering.Module.Basic

namespace ObjcLowering.Hierarchy

def above (m : Module) (name : Name) : Option Name :=
  stated? ((m.class? name).bind (·.superclass))

def firstRepeat? (m : Module) : (fuel : Nat) → (visited : List Name) → (name : Name) → Option Name
  | 0, _, _ => none
  | fuel + 1, visited, name =>
    if visited.contains name then some name
    else
      match above m name with
      | some up => firstRepeat? m fuel (name :: visited) up
      | none => none

/-- The first name that repeats above a class. Among one name more than there are classes, and a
last one outside the module, one has to repeat. -/
def cycleAt? (m : Module) (name : Name) : Option Name :=
  firstRepeat? m (m.classes.entries.length + 2) [] name

def warnMissingSupers (m : Module) : Module :=
  m.classes.values.foldl
    (fun m cls =>
      match stated? cls.superclass with
      | some up => if m.classes.has up then m else m.warn s!"superclass '{up}' of '{cls.name}' not found"
      | none => m) m

def firstCycle? (m : Module) : Option (Name × Name) :=
  m.classes.values.findSome? fun cls => (cycleAt? m cls.name).map fun again => (cls.name, again)

def validate (m : Module) : Except Fault Module := do
  m.classes.values.forM fun cls => discard ((stated? cls.superclass).mapM Json.asKey)
  match firstCycle? m with
  | some (start, again) => throw (.inheritanceCycle start.plain again.plain)
  | none => return warnMissingSupers m

def number (m : Module) : (fuel : Nat) → (order : List Name) → (name : Name) → List Name
  | 0, order, _ => order
  | fuel + 1, order, name =>
    if order.contains name then order
    else
      match (m.class? name).bind m.parent? with
      | some up => number m fuel order up.name ++ [name]
      | none => order ++ [name]

def classOrder (m : Module) : Except Fault (List Name) := do
  return (← Json.sorted m.classes.names).foldl (number m (m.classes.entries.length + 1)) []

def assignIds (m : Module) : Except Fault Module := do
  let order ← classOrder m
  return { m with classes := ⟨m.classes.entries.map fun (name, cls) =>
      (name, { cls with id := order.idxOf name })⟩ }

def depthOf (m : Module) (cls : ClassDecl) : Int := (m.chain cls).length - 1

def computeDepths (m : Module) : Module :=
  { m with classes := m.classes.mapValues fun cls => { cls with depth := depthOf m cls } }

def classesById (m : Module) : List ClassDecl :=
  m.classes.values.mergeSort fun a b => a.id ≤ b.id

end ObjcLowering.Hierarchy
