import ObjcLowering.Lowering.Context

namespace ObjcLowering.Lowering

open Ast

def lowerAll (lower : Node → Lower (List Code)) (ns : List Node) : Lower (List Code) :=
  return (← ns.mapM lower).flatten

def endsInReturn (ns : List Node) : Bool :=
  match ns.getLast? with
  | some n => n.kind = "ReturnStmt"
  | none => false

def releaseAtEnd (depth : Nat) (ns : List Node) : Lower (List Code) :=
  if endsInReturn ns then return [] else releaseScope depth

def retainParams (depth : Nat) (params : List Param) : Lower (List Code) := do
  let r ← root
  params.forM fun p => discard p.name.asKey
  modify fun s => params.foldl (fun s p => s.track p.name) s
  return params.map fun p => .retain depth r p.name.plain

def lowerScope (below : Below) (depth : Nat) (params : List Param) (n : Node) :
    Lower (List Code) := do
  openScope []
  let entry ← retainParams (depth + 1) params
  let inside ← n.children
  let body ← lowerAll (below.stmt (depth + 1)) inside
  let exit ← releaseAtEnd (depth + 1) inside
  closeScope
  return entry ++ body ++ exit

def lowerBraced (below : Below) (depth : Nat) (n : Node) : Lower (List Code) :=
  if n.kind = "CompoundStmt" then lowerScope below depth [] n else below.stmt (depth + 1) n

def lowerFunctionBody (below : Below) (params : List Param) (n : Node) : Lower Code :=
  return .block 0 (← lowerScope below 0 params n)

end ObjcLowering.Lowering
