import ObjcLowering.Module.Basic
import ObjcLowering.Target.Code

namespace ObjcLowering.Lowering

open Ast

structure Env where
  cls : ClassDecl
  module : Module
  root : String
  method : Option Method := none
  hasItemPool : Bool := false
  source : Option String := none
  /-- Classes and selectors of the methods whose result the caller owns. -/
  owning : List (Name × Name) := []
  deriving Inhabited, Repr

structure State where
  /-- The object variables of each open scope, the innermost scope first. -/
  scopes : List (List Name) := []
  /-- Variables whose reference has been given away. -/
  consumed : List Name := []
  /-- The number of scopes that were open when each open loop began, the innermost loop first. -/
  loops : List Nat := []
  /-- Declarations that have to precede the current statement. -/
  pending : List TempDecl := []
  /-- Definitions of string constants and of functions for blocks, made on the way. -/
  strings : List String := []
  blocks : List String := []
  literals : Table String String := {}
  temps : Nat := 0
  locks : Nat := 0
  diagnostics : List String := []
  errors : List String := []
  deriving Inhabited, Repr

abbrev Lower := ReaderT Env (StateT State (Except Fault))

structure Below where
  expr : Node → Lower String
  stmt : (depth : Nat) → Node → Lower (List Code)
  branch : (depth : Nat) → Node → Lower (List Code)

def warn (text : String) : Lower Unit :=
  modify fun s => { s with diagnostics := s.diagnostics ++ [text] }

def fail (text : String) : Lower Unit := modify fun s => { s with errors := s.errors ++ [text] }

def root : Lower String := return (← read).root

def freshTemp : Lower Nat := do
  let s ← get
  set { s with temps := s.temps + 1 }
  return s.temps

def addPending (name text : String) : Lower Unit :=
  modify fun s => { s with pending := s.pending ++ [⟨name, text⟩] }

def flush (depth : Nat) : Lower (List Code) := do
  let s ← get
  set { s with pending := [] }
  return s.pending.map (.temp depth)

namespace State

def track (s : State) (name : Name) : State :=
  match s.scopes with
  | scope :: rest => { s with scopes := addNew scope name :: rest }
  | [] => s

def isTracked (s : State) (name : Name) : Bool := s.scopes.any fun scope => scope.contains name

def checkTracked (s : State) (name : Name) : Except Fault Bool :=
  if s.scopes.isEmpty then .ok false else do return s.isTracked (← name.asKey)

def isTrackedInnermost (s : State) (name : Name) : Bool :=
  match s.scopes with
  | scope :: _ => scope.contains name
  | [] => false

def consume (s : State) (name : Name) : State :=
  if s.isTracked name then { s with consumed := addNew s.consumed name } else s

def restore (s : State) (name : Name) : State :=
  { s with consumed := s.consumed.filter (· != name) }

def owned (s : State) (scope : List Name) : List Name :=
  scope.filter fun name => !s.consumed.contains name

def scopesInLoop (s : State) : List (List Name) :=
  match s.loops with
  | outside :: _ => s.scopes.take (s.scopes.length - outside)
  | [] => []

end State

def openScope (names : List Name) : Lower Unit :=
  modify fun s => { s with scopes := names :: s.scopes }

def closeScope : Lower Unit := modify fun s => { s with scopes := s.scopes.tail }

def openLoop : Lower Unit := modify fun s => { s with loops := s.scopes.length :: s.loops }

def closeLoop : Lower Unit := modify fun s => { s with loops := s.loops.tail }

def releaseAll (depth : Nat) (names : List Name) : Lower (List Code) := do
  let r ← root
  return names.map fun name => .release depth r name.plain

def releaseScope (depth : Nat) : Lower (List Code) := do
  let s ← get
  releaseAll depth (s.owned (s.scopes.headD []))

def releaseLoop (depth : Nat) : Lower (List Code) := do
  let s ← get
  releaseAll depth (s.scopesInLoop.flatMap s.owned)

def releaseForReturn (depth : Nat) (returned : Option Name) : Lower (List Code) := do
  let s ← get
  releaseAll depth ((s.scopes.reverse.flatMap s.owned).filter fun name => returned != some name)

end ObjcLowering.Lowering
