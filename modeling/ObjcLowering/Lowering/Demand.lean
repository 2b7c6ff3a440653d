import ObjcLowering.TypeArguments.Check

namespace ObjcLowering.Lowering

open Ast

def madeClass? (n : Node) : Except Fault (Option Name) := do
  match n.kind with
  | "ObjCMessageExpr" =>
    if n.selector == "alloc" && n.receiverKind == "class" then
      (stated? (← n.attrs.classType.get).qual).mapM Json.asKey
    else return none
  | "ObjCArrayLiteral" => return some "OZArray"
  | "ObjCDictionaryLiteral" => return some "OZDictionary"
  | "ObjCBoxedExpr" => return some "OZQ31"
  | "ObjCAtSynchronizedStmt" => return some "OZSpinLock"
  | _ => return none

def bodyNodes (m : Module) : List Node :=
  ((m.bodies).filterMap id).flatMap Node.preorder

def allocCounts (m : Module) : Except Fault (Table Name Int) := do
  return (← (bodyNodes m).filterMapM madeClass?).foldl (fun t cls => t.bump cls 1) {}

def itemSlots (m : Module) : Nat :=
  (((bodyNodes m).filter fun n => n.kind == "ObjCArrayLiteral" || n.kind == "ObjCDictionaryLiteral").map
    fun n => n.inner.length).foldl (· + ·) 0

def spinLock (root : Name) (id : Int) : ClassDecl :=
  { name := "OZSpinLock"
    superclass := some root
    ivars := [
      { name := "_lock", type := ⟨"oz_spinlock_t"⟩ },
      { name := "_key", type := ⟨"oz_spinlock_key_t"⟩ },
      { name := "_obj", type := ⟨"OZObject *"⟩ }]
    id
    depth := 1
    isFoundation := true }

end ObjcLowering.Lowering

namespace ObjcLowering.Module

def withSpinLock (m : Module) (root : Name) : Except Fault Module := do
  if ((← Lowering.allocCounts m).find? "OZSpinLock").isNone || m.classes.has "OZSpinLock" then
    return m
  else
    let ids := m.classes.values.map (·.id)
    let last := match ids with
      | [] => -1
      | id :: rest => rest.foldl max id
    return { m with classes := m.classes.set "OZSpinLock" (Lowering.spinLock root (last + 1)) }

end ObjcLowering.Module
