import ObjcLowering.Declarations.Basic
import ObjcLowering.Declarations.SourceText

namespace ObjcLowering.Declarations

open Ast

def placePrefix (source : Option Path) (line col : Option Json) : String :=
  match source, stated? line, stated? col with
  | none, _, _ => ""
  | some p, some line, some col => s!"{p.name}:{line}:{col}: "
  | some p, some line, none => s!"{p.name}:{line}: "
  | some p, none, _ => s!"{p.name}: "

def recoveryError : String :=
  "Clang produced a RecoveryExpr node — the expression could not be analyzed. "
    ++ "This typically happens with non-Apple LLVM Clang builds (e.g. Zephyr SDK). "
    ++ "Ensure -fblocks is enabled, or use Apple Clang on macOS / "
    ++ "a full LLVM Clang with ObjC support on Linux."

mutual

def unsupported (source : Option Path) : Node → Except Fault (List String)
  | .mk a ns => do
    if a.kind = "RecoveryExpr" then
      let first := (← a.range.get).first
      let place ← (if a.loc.isGiven then a.loc else first).get
      return [placePrefix source place.line place.col ++ recoveryError]
    else if a.kind = "ObjCAtTryStmt" then
      let place ← a.loc.get
      return [placePrefix source place.line none ++ "@try/@catch/@finally is not supported"]
    else unsupportedList source ns

def unsupportedList (source : Option Path) : List Node → Except Fault (List String)
  | [] => .ok []
  | n :: ns => do return (← unsupported source n) ++ (← unsupportedList source ns)

end

end ObjcLowering.Declarations

namespace ObjcLowering

open Ast Declarations

def Module.ofTree (fs : Files) (root : Node) : Except Fault Module := do
  let m ← addTree {} "" root
  let m := { m with classes := m.classes.erase "Protocol" }
  let main ← (← mainFile? root).mapM fun file => file.textOr .wrongValue
  let main := (main.map Path.ofText).filter fs.isFile
  let m := { m with source := main }
  let m ← match main with
    | some path => addSourceTexts fs m path
    | none => pure m
  root.checkTree
  let m := { m with errors := m.errors ++ (← unsupported m.source root) }
  return distribute m

end ObjcLowering
