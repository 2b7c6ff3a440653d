import ObjcLowering.Json.Order
import ObjcLowering.Pools.Demand

namespace ObjcLowering.Pools

open Ast

def unpooledClasses : List Name :=
  ["Object", "Protocol", "OZString", "OZMutableString", "OZAutoreleasePool", "OZQ31", "OZArray",
   "OZDictionary", "OZLog", "OZGPIOPin", "OZGPIOOutput", "OZGPIOInput"]

structure Pool where
  cls : Name
  blockSize : Int
  count : Int
  align : Int
  deriving DecidableEq, Inhabited, Repr

def pools (sizes counts : Table Name Int) (pointer : Int) : Except Fault (List Pool) := do
  let wanted := counts.entries.filter fun (cls, n) => !unpooledClasses.contains cls && 0 < n
  discard (Json.sorted (wanted.map (·.1)))
  return (Json.sortBy (·.1) wanted).map fun (cls, n) =>
    { cls := cls
      blockSize := alignUp ((sizes.find? cls).getD (pointer + 4)) pointer
      count := n
      align := pointer }

def Pool.definition (p : Pool) : String :=
  s!"OZ_DEFINE_POOL({p.cls}, {p.blockSize}, {p.count}, {p.align});\n"

def Pool.summary (p : Pool) : String :=
  s!"objz_gen_pools: {p.cls} block_size={p.blockSize} count={p.count} align={p.align}\n"

def definitions (ps : List Pool) : String :=
  "/* Auto-generated by objz_gen_pools.py — do not edit */\n#include <objc/pool.h>\n\n"
    ++ String.join (ps.map Pool.definition)

def summary (ps : List Pool) : String :=
  if ps.isEmpty then "objz_gen_pools: no user classes with alloc calls found\n"
  else String.join (ps.map Pool.summary)

/-- The pools that the syntax trees of a program call for. There has to be a tree, and pointers have
four or eight bytes. -/
def ofTrees (roots : List Node) (pointer : Int) : Except Fault (List Pool) := do
  if roots.isEmpty || !(pointer = 4 || pointer = 8) then throw .badOption
  let sizes ← classSizes (← classLayouts roots) pointer
  let found ← analyze roots
  pools sizes (← poolCounts found.allocs found.calls found.threads) pointer

end ObjcLowering.Pools
