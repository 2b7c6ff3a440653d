import ObjcLowering.Lowering.Bodies

namespace ObjcLowering.Lowering

open Ast

def deallocTail (env : Env) : Code :=
  match (stated? env.cls.superclass).filter env.module.classes.has with
  | some parent => .line 1 s!"{parent}_dealloc((struct {parent} *)self);"
  | none => .line 1 s!"{env.root}_dispatch_free((struct {env.root} *)self);"

def releaseIvars (env : Env) : List Code :=
  (strongIvars env.cls).map fun v => .release 1 env.root s!"self->{v.name}"

/-- The function for a written `dealloc`. A message to `super` among its statements is left out,
since the call at the end stands for it. -/
def writtenDealloc (m : Method) : Lower String := do
  let env ← read
  checkIvars env.cls
  checkMethod m
  let body ← match m.body with
    | some body => do
      modify fun s => { s with scopes := [], consumed := [], locks := 0 }
      let stmts ← liftM (body.children >>= List.filterM fun n => do return !(← isSuperDealloc n))
      withReader (fun env => { env with method := some m }) (lowerAll (lowerStmt 1) stmts)
    | none => pure []
  return methodSignature env.cls m ++ "\n"
    ++ (Code.block 0 (body ++ releaseIvars env ++ [deallocTail env])).render ++ "\n"

def deallocHead (env : Env) : String :=
  s!"void {env.cls.name}_dealloc(struct {env.cls.name} *self)\n"

def releaseElements (env : Env) (fields : List String) (count : String) : List Code :=
  match fields with
  | [] => []
  | first :: _ =>
    [.forLoop 1 "unsigned int i = 0; i < self->_count; i++" .braced
      (fields.map fun f => .line 2 (env.root ++ "_release(self->" ++ f ++ "[i]);")),
     .branch 1 ("self->" ++ first) .braced
      [.line 2 "oz_mem_blocks_free_contiguous(&oz_item_pool,",
       .line 3 ("self->" ++ first ++ ", " ++ count ++ ");")] .absent []]

/-- The function for a class without a written `dealloc`; none for a topmost class without strong
variables. -/
def madeDealloc? (env : Env) : Except Fault (Option String) := do
  let function (body : List Code) : Option String :=
    some (deallocHead env ++ (Code.block 0 (body ++ [deallocTail env])).render ++ "\n")
  if env.hasItemPool && env.cls.name == "OZArray" then
    return function (releaseElements env ["_items"] "self->_count")
  else if env.hasItemPool && env.cls.name == "OZDictionary" then
    return function (releaseElements env ["_keys", "_values"] "self->_count * 2")
  else
    checkIvars env.cls
    return if (strongIvars env.cls).isEmpty && env.module.isRoot env.cls then none
      else function (releaseIvars env)

end ObjcLowering.Lowering
