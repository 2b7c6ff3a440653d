import ObjcLowering.Lowering.Literals
import ObjcLowering.Lowering.Scopes

namespace ObjcLowering.Lowering

open Ast

def capture? (ns : List Node) : Except Fault (Option Name) := do
  let captures ← (ns.filter fun n => n.kind == "Capture").mapM fun n => do
    return (n.attrs.isByRef, (← n.attrs.boundVar.get).name.getD "?")
  return (captures.find? fun c => !c.1).map (·.2)

def blockResult (type : String) : String :=
  let before := match Text.cut? "(^)" type with
    | some (a, _) => a
    | none => ((Text.cut? "(" type).map (·.1)).getD ""
  if before = "" then "void" else (SourceType.mk (Text.trim before)).cType

def blockParam (n : Node) : Except Fault String := do
  let type ← (SourceType.mk (← n.qualType)).checked
  return s!"{type.cType} {n.name}"

def blockType (n : Node) : Except Fault String := do
  let type ← n.qualType
  if type.holds then type.textOr .unfit else return ""

/-- Runs the lowering of another function's body: it has scopes, loops and pending declarations of
its own, and shares what belongs to the file. -/
def asOwnFunction {α : Type} (run : Lower α) : Lower α := do
  let outer ← get
  set { outer with scopes := [], consumed := [], loops := [], pending := [], locks := 0 }
  let result ← run
  modify fun s => { s with
    scopes := outer.scopes
    consumed := outer.consumed
    loops := outer.loops
    pending := outer.pending
    locks := outer.locks }
  return result

def defineBlock (below : Below) (n : Node) (parts : List Node) : Lower String := do
  let type ← blockType n
  let position := position? (← n.attrs.loc.get)
  let name := placeName "_oz_block" position (← get).blocks.length
  if position.isNone then warn "warning: BlockExpr without source location"
  let params ← (parts.filter fun c => c.kind == "ParmVarDecl").mapM fun c => liftM (blockParam c)
  let head := "static " ++ blockResult type ++ " " ++ name ++ "("
    ++ (if params.isEmpty then "void" else Text.join ", " params) ++ ")\n"
  let body ← match (parts.filter fun c => c.kind == "CompoundStmt").getLast? with
    | some body => asOwnFunction (lowerFunctionBody below [] body)
    | none => pure (.block 0 [])
  let text := Text.trimRightBy (· == '\n') (head ++ body.render)
  modify fun s => { s with blocks := s.blocks ++ [text] }
  return name

def lowerBlock (below : Below) (n : Node) : Lower String := do
  match n.inner with
  | [] => return "/* TODO: empty BlockExpr */"
  | decl :: _ =>
    if (← decl.check).kind != "BlockDecl" then return "/* TODO: BlockExpr without BlockDecl */"
    else
      let parts ← decl.children
      match ← capture? parts with
      | some var =>
        fail (s!"capturing blocks not supported (block captures '{var}'). "
          ++ "Use a non-capturing block or a file-scope static variable instead.")
        return nullPointer
      | none => defineBlock below n parts

end ObjcLowering.Lowering
