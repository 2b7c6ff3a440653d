import ObjcLowering.Module.Basic
import ObjcLowering.Text.Scan

namespace ObjcLowering.Output

def typeDef? (m : Module) (type : String) : Option String :=
  let bare := Text.trimRightBy (fun c => c = ' ' || c = '*') type
  m.typeDefs.find? type <|> m.typeDefs.find? ((Text.after? "const " bare).getD bare)

def declaredTypes (cls : ClassDecl) : List Json :=
  cls.ivars.map (·.type.raw)
    ++ (cls.methods.flatMap fun m => m.returnType.raw :: m.params.map (·.type.raw))
    ++ cls.functions.flatMap fun f => f.returnType.raw :: f.params.map (·.type.raw)

def headerTypeDefs (m : Module) (cls : ClassDecl) : Except Fault (List String) := do
  let types ← (declaredTypes cls).mapM fun type => do (← type.asKey).textOr .unfit
  return distinct (types.filterMap (typeDef? m))

def allHeaderTypeDefs (m : Module) : Except Fault (List String) :=
  return distinct (← m.classes.values.mapM (headerTypeDefs m)).flatten

def constantName : Text.Pattern String := fun lineStart s =>
  match s with
  | '\t' :: rest =>
    if lineStart then (Text.Chars.word? rest).map fun (w, rest) => (.ofList w, rest) else none
  | _ => none

def enumConstants (m : Module) : Table String String :=
  (m.typeDefs.entries.filter fun (key, _) => Text.begins "enum " key).foldl
    (fun t (_, definition) =>
      (Text.findAll constantName definition).foldl (fun t name => t.set name definition) t) {}

/-- The definitions of enumerations whose constants occur in some texts, apart from known ones. -/
def neededTypeDefs (constants : Table String String) (known texts : List String) : List String :=
  distinct (texts.flatMap fun text =>
    ((constants.entries.filter fun (name, definition) =>
      Text.has name text && !known.contains definition).map (·.2)))

end ObjcLowering.Output
