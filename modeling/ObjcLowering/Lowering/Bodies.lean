import ObjcLowering.Lowering.Statements

namespace ObjcLowering.Lowering

open Ast

/-- Lowering for trees of a given depth. Only a macro argument that has to be lowered in order to
lower itself runs out of levels. -/
def level : Nat → Below
  | 0 =>
    { expr := fun _ => throw .endlessExpansion
      stmt := fun _ _ => throw .endlessExpansion
      branch := fun _ _ => throw .endlessExpansion }
  | k + 1 =>
    let below := level k
    { expr := exprStep below
      stmt := stmtStep below
      branch := branchStep below }

def lowerExpr (n : Node) : Lower String := (level n.depth).expr n

def lowerStmt (depth : Nat) (n : Node) : Lower (List Code) := (level n.depth).stmt depth n

def lowerCompound (depth : Nat) (params : List Param) (n : Node) : Lower (List Code) :=
  lowerScope (level n.depth) depth params n

def lowerBody (params : List Param) (body : Option Node) : Lower Code :=
  match body with
  | some n => lowerFunctionBody (level n.depth) (objectParams params) n
  | none => return .block 0 []

end ObjcLowering.Lowering
