import ObjcLowering.Declarations.Origin
import ObjcLowering.Module.Basic
import ObjcLowering.Source.Reading

namespace ObjcLowering.Declarations

def ownIncludes : List String :=
  ["OZObject", "OZLog", "OZString", "OZArray", "OZDictionary", "OZQ31", "OZDefer", "Foundation/",
   "objc/"]

def quotedText? : List Char → Option (List Char)
  | [] => none
  | c :: s =>
    if c = '"' then
      let name := s.takeWhile (· != '"')
      if name.isEmpty || (s.dropWhile (· != '"')).isEmpty then quotedText? s else some name
    else quotedText? s

def hasClassText (text : String) : Bool :=
  Text.has "@interface" text || Text.has "@implementation" text

def includePlaces (dir : Path) : List Path := [dir, dir.parent.join (.ofText "include")]

def leadsToClasses (fs : Files) (dir : Path) (name : String) : Bool :=
  let found := (includePlaces dir).findSome? fun place => fs.find? (place.join (.ofText name))
  (found.map hasClassText).getD false

def isUserInclude (fs : Files) (line : String) (dir : Option Path) : Bool :=
  let stripped := Text.trim line
  if Text.begins "#import" stripped then false
  else if ownIncludes.any fun p => Text.has p line then false
  else
    match dir, quotedText? stripped.toList with
    | some dir, some name => !leadsToClasses fs dir (.ofList name)
    | _, _ => true

def addInclude (fs : Files) (source : String) (dir : Path) (m : Module) (t : Tree) :
    Except Fault Module := do
  let line ← t.text source
  if isUserInclude fs line (some dir) then return { m with includes := addNew m.includes line }
  else return m

def scanIncludes (fs : Files) (m : Module) (path : Path) : Except Fault Module :=
  match fs.find? path with
  | none => .ok m
  | some text =>
    ((fs.treeOf text).children.filter fun t => t.type == "preproc_include").foldlM
      (addInclude fs text path.parent) m

def skippedHeaderTypes : List String :=
  ["class_interface", "class_implementation", "protocol_declaration", "category_interface",
   "category_implementation", "class_forward_declaration", "protocol_forward_declaration",
   "preproc_include", "preproc_import", "comment", "identifier", "#endif", ";"]

def guardTypes : List String := ["preproc_ifdef", "preproc_ifndef"]

def specifierTypes : List String := ["struct_specifier", "union_specifier", "enum_specifier"]

def stopWithSemicolon (t : Tree) (next : List Tree) : Nat :=
  match next with
  | s :: _ => if s.type = ";" then s.stop else t.stop
  | [] => t.stop

def keptHeaderText? (source : String) (t : Tree) (next : List Tree) :
    Except Fault (Option String) := do
  if skippedHeaderTypes.contains t.type then return none
  let text ← t.text source
  let stripped := Text.trim text
  if Text.begins "#import" stripped || Text.begins "#include" stripped then return none
  if stripped = "#pragma once" || stripped = "" then return none
  if t.type = "preproc_def" && !(t.children.any fun c => c.type == "preproc_arg") then return none
  if guardTypes.contains t.type || t.type = "#ifndef" || t.type = "#ifdef" then return none
  if specifierTypes.contains t.type then
    return some (← sliceText source t.start (stopWithSemicolon t next))
  return some text

def addHeaderTexts (source : String) (m : Module) : List Tree → Except Fault Module
  | [] => .ok m
  | t :: ts => do
    match ← keptHeaderText? source t ts with
    | some text =>
      addHeaderTexts source { m with headerVerbatim := addNew m.headerVerbatim text } ts
    | none => addHeaderTexts source m ts

def insideGuard (ts : List Tree) : List Tree :=
  match ts with
  | [t] => if guardTypes.contains t.type then t.children else ts
  | _ => ts

def scanHeader (fs : Files) (m : Module) (path : Path) : Except Fault Module :=
  match fs.find? path with
  | none => .ok m
  | some text => addHeaderTexts text m (insideGuard (fs.treeOf text).children)

def companionHeaders (path : Path) : List Path :=
  let name := Path.ofText (path.stem ++ ".h")
  let include_ := Path.ofText "include"
  [path.withSuffix ".h", (path.parent.join include_).join name,
   (path.parent.parent.join include_).join name]

def hasFieldList (t : Tree) : Bool := t.children.any fun c => c.type == "field_declaration_list"

def hasStructDefinition (t : Tree) : Bool :=
  t.children.any fun c => c.type == "struct_specifier" && hasFieldList c

def addMainTexts (fs : Files) (source : String) (dir : Path) (m : Module) :
    List Tree → Except Fault Module
  | [] => .ok m
  | t :: ts => do
    if t.type = "expression_statement" || (t.type = "declaration" && hasStructDefinition t) then
      let text ← t.text source
      addMainTexts fs source dir { m with verbatim := m.verbatim ++ [text] } ts
    else if t.type = "struct_specifier" && hasFieldList t then
      let text ← sliceText source t.start (stopWithSemicolon t ts)
      addMainTexts fs source dir { m with verbatim := m.verbatim ++ [text] } ts
    else if t.type = "preproc_include" then
      addMainTexts fs source dir (← addInclude fs source dir m t) ts
    else addMainTexts fs source dir m ts

def addSourceTexts (fs : Files) (m : Module) (path : Path) : Except Fault Module :=
  match fs.find? path with
  | none => .ok m
  | some text => do
    let m ← (companionHeaders path).foldlM
      (fun m header => do scanHeader fs (← scanIncludes fs m header) header) m
    addMainTexts fs text path.parent m (fs.treeOf text).children

/-- Gives the texts of a module to its classes with methods: includes to each, other texts to a
single class, texts of the header to the first class that the main file implements. -/
def distribute (m : Module) : Module :=
  let implemented := m.classes.values.filter fun c => !c.methods.isEmpty
  match implemented with
  | [] => m
  | first :: others =>
    let m := { m with
      classes := m.classes.mapValues fun c =>
        if c.methods.isEmpty then c else { c with includes := addAllNew c.includes m.includes }
      includes := [] }
    let m :=
      if others.isEmpty && !m.verbatim.isEmpty then
        { m with
          classes := m.classes.modify first.name fun c => { c with verbatim := m.verbatim }
          verbatim := [] }
      else m
    let target := ((implemented.find? fun c => m.mainClasses.contains c.name).getD first).name
    { m with
      classes := m.classes.modify target fun c =>
        { c with headerVerbatim := addAllNew c.headerVerbatim m.headerVerbatim }
      headerVerbatim := [] }

end ObjcLowering.Declarations
