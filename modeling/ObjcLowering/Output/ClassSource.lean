import ObjcLowering.Lowering.Functions
import ObjcLowering.Output.Files
import ObjcLowering.Output.TypeDefs

namespace ObjcLowering.Output

open Lowering

def trimNewlines (text : String) : String := Text.trimRightBy (· == '\n') text

structure Functions where
  methods : List String := []
  dealloc : Option String := none
  deriving Inhabited, Repr

def addMethod (fs : Functions) (m : Method) : Lower Functions := do
  if isBuiltIn (← read) m then return fs
  else if m.selector = "dealloc" then
    return { fs with dealloc := some (trimNewlines (← writtenDealloc m)) }
  else return { fs with methods := fs.methods ++ [trimNewlines (← methodText m)] }

def deallocText (env : Env) (fs : Functions) : Except Fault String := do
  match fs.dealloc with
  | some text => return text
  | none =>
    if env.cls.name = "OZSpinLock" then return ""
    else return ((← madeDealloc? env).map trimNewlines).getD ""

def optionalLine (text : String) : List String := if text = "" then [] else [text]

def staticTexts (statics : List StaticVar) : Except Fault (List String) := do
  statics.forM fun v => discard v.type.checked
  return statics.map staticText

def classSource (stem : Name) (poolCount : Int) : Lower String := do
  let env ← read
  let cls := env.cls
  let name := cls.name.plain
  let fs ← cls.methods.foldlM addMethod {}
  let dealloc ← deallocText env fs
  let functions ← cls.functions.mapM fun f => return trimNewlines (← functionText f)
  let statics ← staticTexts cls.statics
  let typeDefs := neededTypeDefs (enumConstants env.module) (← allHeaderTypeDefs env.module)
    (fs.methods ++ functions ++ statics ++ cls.verbatim)
  let others ← otherStems env.module stem
  let s ← get
  return banner ++ unlines (
    (stem :: others).map includeHeader
      ++ (typeDefs.flatMap fun d => ["", d])
      ++ ["", s!"OZ_SLAB_DEFINE(oz_slab_{name}, sizeof(struct {name}), {poolCount}, 4);", ""]
      ++ cls.verbatim ++ statics ++ s.strings
      ++ (s.blocks.flatMap fun b => [b, ""])
      ++ (if cls.name = env.root then
        [trimNewlines (countingText name), trimNewlines (introspectionText name)] else [])
      ++ (functions.flatMap fun f => [f, ""])
      ++ fs.methods
      ++ optionalLine dealloc)

def orphanSource (m : Module) (orphan : Orphan) (functions : List String) :
    Except Fault String := do
  let statics ← staticTexts orphan.statics
  let typeDefs := neededTypeDefs (enumConstants m) [] (functions ++ statics ++ orphan.verbatim)
  return banner ++ unlines (
    ["#include \"oz_dispatch.h\""] ++ orphan.includes
      ++ (typeDefs.flatMap fun d => ["", d])
      ++ [""] ++ orphan.verbatim ++ statics
      ++ functions.flatMap fun f => [f, ""])

end ObjcLowering.Output
