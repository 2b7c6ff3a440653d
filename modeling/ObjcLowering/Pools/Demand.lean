import ObjcLowering.Pools.CallGraph

namespace ObjcLowering.Pools

def addScaled (total : Table Name Int) (factor : Int) (extra : Table Name Int) : Table Name Int :=
  extra.entries.foldl (fun t (cls, n) => t.bump cls (n * factor)) total

/-- The allocations along call paths from `function` that avoid `visited` and repeat no function.
Each step of a path leaves a function that calls others, so `fuel` above their number suffices. -/
def allocationsAvoiding (allocs calls : Counts) :
    (fuel : Nat) → (visited : List Name) → (function : Name) → Table Name Int
  | 0, _, _ => {}
  | fuel + 1, visited, function =>
    if visited.contains function then {}
    else
      ((calls.find? function).getD {}).entries.foldl
        (fun total (callee, times) =>
          addScaled total times (allocationsAvoiding allocs calls fuel (function :: visited) callee))
        (addScaled {} 1 ((allocs.find? function).getD {}))

def effectiveAllocations (allocs calls : Counts) (function : Name) : Table Name Int :=
  allocationsAvoiding allocs calls (calls.entries.length + 2) [] function

def raise (total extra : Table Name Int) : Table Name Int :=
  extra.entries.foldl (fun t (cls, n) => t.set cls (max n ((t.find? cls).getD 0))) total

def isPoolName (cls : Name) : Except Fault Bool := do
  let lower := Text.lowerAscii (← cls.textOr .unfit)
  return Text.has "pool" lower && !Text.has "unpool" lower

/-- The needs of `main` and of every thread together. Without any, each function that allocates may
be an entry point, and only classes named for a pool count. -/
def poolCounts (allocs calls : Counts) (threads : List Name) : Except Fault (Table Name Int) := do
  let entries := .text "main" :: distinct threads
  let counts := entries.foldl
    (fun total f => addScaled total 1 (effectiveAllocations allocs calls f)) ({} : Table Name Int)
  if counts.isEmpty then
    let most := allocs.names.foldl
      (fun total f => raise total (effectiveAllocations allocs calls f)) ({} : Table Name Int)
    return ⟨← most.entries.filterM fun (cls, _) => isPoolName cls⟩
  else return counts

end ObjcLowering.Pools
