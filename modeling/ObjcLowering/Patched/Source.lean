import ObjcLowering.Output.ClassSource
import ObjcLowering.Patched.Render
import ObjcLowering.Patched.Template
import ObjcLowering.Patched.Values

namespace ObjcLowering.Patched

open Output

structure Generated where
  text : String
  diagnostics : List String := []
  errors : List String := []
  deriving Inhabited, Repr

def normalInclude (line : String) : String :=
  match Text.after? "#include" line with
  | some rest => "#include " ++ Text.trimLeft rest
  | none => line

def dropRepeated : (included : List String) → List (String × String) → List (String × String)
  | _, [] => []
  | included, (key, value) :: rest =>
    let line := Text.trim value
    if Text.begins "#include" line then
      if included.contains (normalInclude line) then (key, "") :: dropRepeated included rest
      else (key, value) :: dropRepeated (normalInclude line :: included) rest
    else (key, value) :: dropRepeated included rest

/-- Writes `struct` before a class name that a star follows. `back` is the text so far in reverse,
`skip` the number of characters of the last name that are still to be copied. -/
def qualifyFrom (name : List Char) : (skip : Nat) → (back : List Char) → List Char → List Char
  | _, _, [] => []
  | k + 1, back, c :: s => c :: qualifyFrom name k (c :: back) s
  | 0, back, c :: s =>
    let isStarred := match Text.Chars.after? name (c :: s) with
      | some rest => (Text.Chars.trimLeft rest).head? == some '*'
      | none => false
    let isWhole := !((back.head?.map Text.isWord).getD false)
    if isStarred && isWhole && !("struct ".toList.reverse.isPrefixOf back) then
      "struct ".toList ++ c :: qualifyFrom name (name.length - 1) (c :: back) s
    else c :: qualifyFrom name 0 (c :: back) s

def qualifyClass (text name : String) : String :=
  if Text.has name text then .ofList (qualifyFrom name.toList 0 [] text.toList) else text

def qualifyClasses (m : Module) (text : String) : Except Fault String := do
  return (← m.classes.names.mapM (Json.textOr .wrongValue)).foldl qualifyClass text

def typeDefsFor (m : Module) (text : String) : Except Fault String :=
  return String.join ((neededTypeDefs (enumConstants m) (← allHeaderTypeDefs m) [text]).map fun d =>
    "\n" ++ d ++ "\n")

def sharedConstants (strings : List String) : String :=
  if strings.isEmpty then "" else "\n" ++ unlines strings

def outlineOf (input : Input) : Except Fault String :=
  (outline input.text (input.files.treeOf input.text)).map outlineText

def classFile (input : Input) (stem : Name) (poolCount : Name → Int) :
    Except Fault Generated := do
  let template ← outlineOf input
  let g ← gather input []
  let includes := (stem :: (← otherStems input.module stem)).map includeHeader
  let body ← render template ⟨dropRepeated includes g.values.entries⟩
  let typeDefs ← typeDefsFor input.module body
  let slabs := input.classes.map fun c =>
    s!"\nOZ_SLAB_DEFINE(oz_slab_{c.name}, sizeof(struct {c.name}), {max (poolCount c.name) 1}, 4);\n"
  return { text := banner ++ unlines includes ++ typeDefs ++ String.join slabs
             ++ sharedConstants g.strings ++ body
           diagnostics := g.diagnostics
           errors := g.errors }

def orphanFile (input : Input) (orphan : Orphan) : Except Fault Generated := do
  let template ← outlineOf input
  let g ← gather input (orphan.statics.map (·.name))
  let includes := "#include \"oz_dispatch.h\"" :: (← allStems input.module).map includeHeader
  let values ← (dropRepeated includes g.values.entries).mapM fun (key, value) => do
    return (key, ← qualifyClasses input.module value)
  let body ← render template ⟨values⟩
  let typeDefs ← typeDefsFor input.module body
  let statics ← staticTexts (orphan.statics.filter fun v => g.statics.contains v.name)
  return { text := banner ++ unlines includes ++ typeDefs ++ unlines statics
             ++ sharedConstants g.strings ++ body
           diagnostics := g.diagnostics
           errors := g.errors }

end ObjcLowering.Patched
