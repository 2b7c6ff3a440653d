import ObjcLowering.RetainCycles.Detection
import ObjcLowering.RetainCycles.Imports

namespace ObjcLowering.RetainCycles

def leastName : List String → String
  | [] => ""
  | n :: ns => ns.foldl (fun best n => if n < best then n else best) n

def turned (cycle : List String) : List String :=
  let loop := cycle.dropLast
  let least := leastName loop
  loop.dropWhile (· != least) ++ loop.takeWhile (· != least)

def distinctCyclesFrom : (seen : List (List String)) → List (List String) → List (List String)
  | _, [] => []
  | seen, c :: cs =>
    if seen.contains (turned c) then distinctCyclesFrom seen cs
    else c :: distinctCyclesFrom (turned c :: seen) cs

def distinctCycles (cycles : List (List String)) : List (List String) := distinctCyclesFrom [] cycles

def edgeLine (refs : Table String (List StrongRef)) (source target : String) : String :=
  match ((refs.find? source).getD []).find? fun r => r.target == target with
  | some r => s!"    {source}.{r.field} ({r.target} *) — strong\n"
  | none => ""

def cycleText (refs : Table String (List StrongRef)) (cycle : List String) : String :=
  s!"  cycle: " ++ Text.join " -> " cycle ++ "\n"
    ++ String.join ((cycle.zip cycle.tail).map fun (a, b) => edgeLine refs a b) ++ "\n"

def reportText (cycles : List (List String)) (refs : Table String (List StrongRef)) : String :=
  if cycles.isEmpty then ""
  else
    let unique := distinctCycles cycles
    s!"\nerror: {unique.length} retain cycle(s) detected\n\n"
      ++ String.join (unique.map (cycleText refs))
      ++ "hint: add __unsafe_unretained to one reference in each cycle\n"
      ++ "      (__weak is not supported and panics at runtime)\n\n"

def exitCode (cycles : List (List String)) : Int := if cycles.isEmpty then 0 else 1

structure Check where
  files : List Path
  graph : ClassGraph
  expanded : Table String (List StrongRef)
  edges : Table String (List String)
  cycles : List (List String)
  deriving Inhabited, Repr

def check (fs : Files) (includeDirs sources : List Path) : Except Fault Check := do
  if sources.isEmpty then throw .badOption
  let files := sortByName Path.toText (reachedFiles fs includeDirs sources)
  let graph ← ClassGraph.ofFiles fs files
  let expanded := inheritRefs graph.supers graph.refs
  let edges := graphOf expanded
  return { files, graph, expanded, edges, cycles := detectCycles edges }

def summaryText (c : Check) : String :=
  let classes := (c.graph.known.filter fun n => !foundationClasses.contains n).length
  let refs := (c.expanded.values.map List.length).foldl (· + ·) 0
  s!"objz_check_cycles: {classes} classes, {refs} strong refs, no cycles\n"

def Check.text (c : Check) : String :=
  if c.graph.refs.isEmpty then ""
  else if c.cycles.isEmpty then summaryText c
  else reportText c.cycles c.expanded

end ObjcLowering.RetainCycles
