import ObjcLowering.Lowering.Accessors
import ObjcLowering.Lowering.Dealloc

namespace ObjcLowering.Lowering

/-- The state at the start of a function: nothing is open or pending, and numbers start anew. What
belongs to the file stays. -/
def State.atFunction (s : State) : State :=
  { s with scopes := [], consumed := [], loops := [], pending := [], temps := 0 }

def State.atMethod (s : State) : State := { s.atFunction with locks := 0 }

def isBuiltIn (env : Env) (m : Method) : Bool :=
  env.cls.name == .text env.root && rootSelectors.contains m.selector

def methodText (m : Method) : Lower String := do
  modify State.atMethod
  let env ← read
  checkMethod m
  let body ← match m.synthesized with
    | some p => do
      discard (p.type.checked : Except Fault SourceType)
      pure (accessorBody env.module env.root env.cls p m.params)
    | none => withReader (fun env => { env with method := some m }) (lowerBody m.params m.body)
  return methodSignature env.cls m ++ "\n" ++ body.render

def functionText (f : Function) : Lower String := do
  modify State.atFunction
  checkFunction f
  let body ← withReader (fun env => { env with method := none }) (lowerBody f.params f.body)
  return functionSignature f ++ "\n" ++ body.render

def staticText (v : StaticVar) : String :=
  "static " ++ v.type.declare v.name ++ ((v.init.map fun j => " = " ++ j.plain).getD "") ++ ";"

def countingText (root : String) : String :=
  let self := "(struct " ++ root ++ " *self)\n"
  "struct " ++ root ++ " *" ++ root ++ "_retain" ++ self
    ++ (Code.block 0 [
      .branch 1 "self" .braced [.line 2 "oz_atomic_inc(&self->_refcount);"] .absent [],
      .returns 1 (some "self")]).render ++ "\n"
    ++ "void " ++ root ++ "_release" ++ self
    ++ (Code.block 0 [
      .branch 1 "!self" .braced [.returns 2 none] .absent [],
      .branch 1 "self->_meta.immortal" .braced [.returns 2 none] .absent [],
      .branch 1 "oz_atomic_dec_and_test(&self->_refcount)" .braced [
        .branch 2 "self->_meta.deallocating" .braced [.returns 3 none] .absent [],
        .assign 2 "self->_meta.deallocating" "1",
        .line 2 ("OZ_PROTOCOL_SEND_dealloc((struct " ++ root ++ " *)self);")] .absent []]).render
    ++ "\n"
    ++ "uint32_t " ++ root ++ "_retainCount" ++ self
    ++ (Code.block 0 [
      .branch 1 "!self" .braced [.returns 2 (some "0")] .absent [],
      .returns 1 (some "(uint32_t)oz_atomic_get(&self->_refcount)")]).render ++ "\n"

def introspectionText (root : String) : String :=
  "BOOL " ++ root ++ "_isEqual_(struct " ++ root ++ " *self, struct " ++ root ++ " *anObject)\n"
    ++ (Code.block 0 [.returns 1 (some "self == anObject")]).render ++ "\n"
    ++ "int " ++ root ++ "_cDescription_maxLength_(struct " ++ root
    ++ " *self, char *buf, int maxLen)\n"
    ++ (Code.block 0 [
      .line 1 "return oz_platform_snprint(buf, (size_t)maxLen, \"<%s: %p>\",",
      .line 2 "oz_class_names[self->_meta.class_id], (void *)self);"]).render ++ "\n"

end ObjcLowering.Lowering
