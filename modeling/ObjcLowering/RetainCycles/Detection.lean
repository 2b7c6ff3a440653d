import ObjcLowering.RetainCycles.References

namespace ObjcLowering.RetainCycles

def ancestorsFrom (supers : Table String (Option String)) :
    (fuel : Nat) → (visited : List String) → Option String → List String
  | 0, _, _ => []
  | _, _, none => []
  | fuel + 1, visited, some cls =>
    if cls = "" || visited.contains cls then []
    else cls :: ancestorsFrom supers fuel (cls :: visited) ((supers.find? cls).getD none)

def ancestors (supers : Table String (Option String)) (cls : String) : List String :=
  ancestorsFrom supers (supers.entries.length + 1) [] ((supers.find? cls).getD none)

def addRefs (table : Table String (List StrongRef)) (cls : String) (refs : List StrongRef) :
    Table String (List StrongRef) :=
  if refs.isEmpty then table
  else table.set cls (addAllNew ((table.find? cls).getD []) refs)

def inheritRefs (supers : Table String (Option String)) (refs : Table String (List StrongRef)) :
    Table String (List StrongRef) :=
  supers.names.foldl
    (fun table cls =>
      (ancestors supers cls).foldl
        (fun table ancestor => addRefs table cls ((refs.find? ancestor).getD [])) table)
    refs

def graphOf (refs : Table String (List StrongRef)) : Table String (List String) :=
  ⟨(refs.entries.filter fun (_, rs) => !rs.isEmpty).map fun (cls, rs) =>
    (cls, sortNames (distinct (rs.map (·.target))))⟩

/-- The state of a search: the current path with its end first, the finished classes, and the cycles
found so far. -/
structure Search where
  path : List String := []
  finished : List String := []
  cycles : List (List String) := []
  deriving Inhabited, Repr

def cycleThrough (path : List String) (node : String) : List String :=
  path.reverse.dropWhile (· != node) ++ [node]

/-- Searches from a class that is not on the path. The path never repeats a class, so `fuel` above
the number of classes suffices. -/
def visit (graph : Table String (List String)) : (fuel : Nat) → (node : String) → Search → Search
  | 0, _, s => s
  | fuel + 1, node, s =>
    let s := { s with path := node :: s.path }
    let s := ((graph.find? node).getD []).foldl
      (fun s next =>
        if s.path.contains next then { s with cycles := s.cycles ++ [cycleThrough s.path next] }
        else if s.finished.contains next then s
        else visit graph fuel next s) s
    { s with path := s.path.tail, finished := node :: s.finished }

def graphNodes (graph : Table String (List String)) : List String :=
  distinct (graph.entries.flatMap fun (cls, targets) => cls :: targets)

def detectCycles (graph : Table String (List String)) : List (List String) :=
  let fuel := (graphNodes graph).length + 1
  (graph.names.foldl
    (fun (s : Search) node => if s.finished.contains node then s else visit graph fuel node s) {}).cycles

end ObjcLowering.RetainCycles
