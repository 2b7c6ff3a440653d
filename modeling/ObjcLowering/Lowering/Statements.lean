import ObjcLowering.Lowering.Assignments
import ObjcLowering.Lowering.Expressions

namespace ObjcLowering.Lowering

open Ast

def branchStep (below : Below) (depth : Nat) (n : Node) : Lower (List Code) := do
  match n.inner with
  | [] => return []
  | cond :: parts =>
    let cond ← below.expr cond
    let before ← flush depth
    let (yesForm, yes) ← match parts.head?.filter fun b => !b.isNull with
      | some body => do pure (Form.braced, ← lowerBraced below depth body)
      | none => pure (Form.absent, [])
    let other := if n.attrs.hasElse then parts.tail.head?.filter fun b => !b.isNull else none
    let (noForm, no) ← match other with
      | some body =>
        if body.kind = "IfStmt" then do pure (Form.chained, ← below.branch depth body)
        else do pure (Form.braced, ← lowerBraced below depth body)
      | none => pure (Form.absent, [])
    return before ++ [.branch depth cond yesForm yes noForm no]

def lowerLoopBody (below : Below) (depth : Nat) (n : Node) : Lower (List Code) := do
  openLoop
  let body ← lowerBraced below depth n
  closeLoop
  return body

def lowerWhile (below : Below) (depth : Nat) (n : Node) : Lower (List Code) := do
  match ← n.children with
  | cond :: body :: _ =>
    let cond ← below.expr cond
    let before ← flush depth
    let body ← lowerLoopBody below depth body
    return before ++ [.whileLoop depth cond body]
  | _ => return []

def lowerDo (below : Below) (depth : Nat) (n : Node) : Lower (List Code) := do
  match ← n.children with
  | body :: cond :: _ =>
    let body ← lowerLoopBody below depth body
    let cond ← below.expr cond
    return [.doLoop depth body cond]
  | _ => return []

def headPart (expr : Node → Lower String) (n : Option Node) : Lower String :=
  match n with
  | some n => if n.kind = "NullStmt" || n.kind = "<<<NULL>>>" then return "" else expr n
  | none => return ""

def initPart (expr : Node → Lower String) (n : Node) : Lower String := do
  if n.kind = "DeclStmt" then
    match n.inner.head?.filter fun d => d.kind == "VarDecl" with
    | some var =>
      let type ← (SourceType.mk (← var.qualTypeOr "int")).checked
      let name := var.attrs.name.getD "i"
      let decl := s!"{type.cType} {name}"
      match (← var.children).find? fun c => c.kind != "FullComment" with
      | some e => return decl ++ " = " ++ (← expr e)
      | none => return decl
    | none => return ""
  else headPart expr (some n)

/-- A `for` loop has five children, the second of which declares a variable in the condition; with
fewer, the last is the body. -/
def lowerFor (below : Below) (depth : Nat) (n : Node) : Lower (List Code) := do
  match ← n.children with
  | init :: second :: rest =>
    let all := init :: second :: rest
    let shift := if all.length > 4 then 1 else 0
    let init ← initPart below.expr init
    let cond ← headPart below.expr all[1 + shift]?
    let step ← headPart below.expr all[2 + shift]?
    let before ← flush depth
    let head := init ++ "; " ++ cond ++ "; " ++ step
    match (if all.length > 4 then all[4]? else all.getLast?).filter fun b => !b.isNull with
    | some body =>
      let body ← lowerLoopBody below depth body
      return before ++ [.forLoop depth head .braced body]
    | none => return before ++ [.forLoop depth head .absent []]
  | _ => return []

/-- Drops `const` after a star: a variable of a loop is assigned to. `skip` characters are still to
be passed over. -/
def dropPointerConst : (skip : Nat) → List Char → List Char
  | _, [] => []
  | k + 1, _ :: s => dropPointerConst k s
  | 0, c :: s =>
    let rest := Text.Chars.trimLeft s
    match Text.Chars.after? "const".toList rest with
    | some after =>
      if c = '*' && !((after.head?.map Text.isWord).getD false) then
        c :: dropPointerConst (s.length - after.length) s
      else c :: dropPointerConst 0 s
    | none => c :: dropPointerConst 0 s

def lowerForIn (below : Below) (depth : Nat) (n : Node) : Lower (List Code) := do
  match ← n.children with
  | decl :: collection :: body :: _ =>
    let var ← decl.firstChild
    let name := var.attrs.name.getD "obj"
    let raw ← (← var.qualTypeOr "id").textOr .wrongValue
    let type := (SourceType.mk (.text (.ofList (dropPointerConst 0 raw.toList)))).cType
    let collection ← below.expr collection
    let before ← flush depth
    let iterator := "_oz_iter" ++ toString (← freshTemp)
    let receiver := "_oz_recv" ++ toString (← freshTemp)
    let call := "OZ_PROTOCOL_SEND_next(" ++ receiver ++ ")"
    let next := if type = "struct OZObject *" then call else "(" ++ type ++ ")" ++ call
    openScope [← name.asKey]
    let body ← lowerLoopBody below (depth + 1) body
    closeScope
    return before ++ [.block depth
      [.temp (depth + 1) ⟨iterator, "struct OZObject *" ++ iterator
        ++ " = (struct OZObject *)OZ_PROTOCOL_SEND_iter((struct OZObject *)" ++ collection ++ ");"⟩,
       .temp (depth + 1) ⟨receiver, "struct OZObject *" ++ receiver ++ " = " ++ iterator ++ ";"⟩,
       .forLoop (depth + 1)
        s!"{type} {name} = {next}; {name} != ((void *)0); {name} = {next}" .braced body]]
  | _ => return []

def lockName (number : Nat) : String := if number = 1 then "_sync" else "_sync" ++ toString number

def lowerSynchronized (below : Below) (depth : Nat) (n : Node) : Lower (List Code) := do
  match ← n.children with
  | object :: body :: _ =>
    modify fun s => { s with locks := s.locks + 1 }
    let name := lockName (← get).locks
    let object ← below.expr object
    let before ← flush depth
    let r ← root
    openScope [.text name]
    let stmts ←
      if body.kind = "CompoundStmt" then lowerAll (below.stmt (depth + 1)) (← body.children)
      else pure []
    let exit ← releaseAtEnd (depth + 1) body.inner
    closeScope
    return before ++ [.block depth
      (.declare (depth + 1) name ("struct OZSpinLock *" ++ name
        ++ " = OZSpinLock_initWithObject(OZSpinLock_alloc(), (struct " ++ r ++ " *)" ++ object ++ ")")
        :: stmts ++ exit)]
  | _ => return []

def lowerSwitch (below : Below) (depth : Nat) (n : Node) : Lower (List Code) := do
  match ← n.children with
  | cond :: body :: _ =>
    let cond ← below.expr cond
    let before ← flush depth
    let body ←
      if body.kind = "CompoundStmt" then lowerAll (below.stmt depth) (← body.children)
      else below.stmt depth body
    return before ++ [.switchOn depth cond body]
  | _ => return []

def lowerCase (below : Below) (depth : Nat) (n : Node) : Lower (List Code) := do
  match n.inner with
  | value :: body =>
    let value ← below.expr value
    return .label depth ("case " ++ value) :: (← lowerAll (below.stmt (depth + 1)) body)
  | [] => return []

def lowerExprStmt (below : Below) (depth : Nat) (n : Node) : Lower (List Code) := do
  let text ← exprStep below n
  let before ← flush depth
  return before ++ [.line depth (text ++ ";")]

def lowerAssign (below : Below) (depth : Nat) (n : Node) : Lower (List Code) := do
  match ← n.children with
  | [lhs, rhs] =>
    match ← strongIvar? (← read).cls lhs with
    | some ivar => assignIvar below.expr depth ivar lhs rhs
    | none =>
      match ← trackedVar? (← get) lhs with
      | some var => assignLocal below.expr depth var rhs
      | none => lowerExprStmt below depth n
  | _ => lowerExprStmt below depth n

def lowerStmtKind (below : Below) (depth : Nat) (n : Node) : Lower (List Code) := do
  match n.kind with
  | "ExprWithCleanups" =>
    match n.inner with
    | c :: _ => below.stmt depth c
    | [] => return []
  | "ReturnStmt" => lowerReturn below.expr depth n
  | "DeclStmt" =>
    lowerAll (lowerVarDecl below.expr depth)
      ((← n.children).filter fun d => d.kind == "VarDecl")
  | "IfStmt" => branchStep below depth n
  | "ForStmt" => lowerFor below depth n
  | "WhileStmt" => lowerWhile below depth n
  | "DoStmt" => lowerDo below depth n
  | "CompoundStmt" => return [.block depth (← lowerScope below depth [] n)]
  | "ObjCAutoreleasePoolStmt" =>
    match n.inner.head?.filter fun b => b.kind == "CompoundStmt" with
    | some body => return [.block depth (← lowerScope below depth [] body)]
    | none => return []
  | "ObjCAtSynchronizedStmt" => lowerSynchronized below depth n
  | "ObjCForCollectionStmt" => lowerForIn below depth n
  | "SwitchStmt" => lowerSwitch below depth n
  | "CaseStmt" => lowerCase below depth n
  | "DefaultStmt" =>
    return .label depth "default" :: (← lowerAll (below.stmt (depth + 1)) (← n.children))
  | "NullStmt" => return [.line depth ";"]
  | "BreakStmt" => return (← releaseLoop depth) ++ [.breaks depth]
  | "ContinueStmt" => return (← releaseLoop depth) ++ [.continues depth]
  | "BinaryOperator" =>
    if n.opcode == "=" then lowerAssign below depth n else lowerExprStmt below depth n
  | _ => lowerExprStmt below depth n

def stmtStep (below : Below) (depth : Nat) (n : Node) : Lower (List Code) := do
  match ← copyStmt? below.expr (← n.check) with
  | some text => return [.line depth (text ++ ";")]
  | none => lowerStmtKind below depth n

end ObjcLowering.Lowering
