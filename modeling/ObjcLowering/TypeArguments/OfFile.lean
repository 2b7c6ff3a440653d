import ObjcLowering.Source.Reading

namespace ObjcLowering.TypeArguments

mutual

def identifier? (source : String) : Tree → Except Fault (Option String)
  | .node _ _ _ cs _ => identifierIn? source cs

def identifierIn? (source : String) : List Tree → Except Fault (Option String)
  | [] => .ok none
  | c :: cs => do
    if c.type = "identifier" then return some (← c.text source)
    else if ["init_declarator", "pointer_declarator", "struct_declarator"].contains c.type then
      match ← identifier? source c with
      | some name => if name != "" then return some name else identifierIn? source cs
      | none => identifierIn? source cs
    else identifierIn? source cs

end

def functionName? (source : String) (t : Tree) : Except Fault (Option String) :=
  let declarator := t.children.findSome? fun c =>
    if c.type = "pointer_declarator" then c.childOfType? "function_declarator"
    else if c.type = "function_declarator" then some c
    else none
  match declarator with
  | some d => identifier? source d
  | none => .ok none

def keywords (source : String) (t : Tree) : Except Fault (List String) := do
  let declarators := t.children.filter fun c => c.type == "keyword_declarator"
  let words := declarators.flatMap fun d => d.children.filter fun c => c.type == "keyword"
  words.mapM fun w => do return (← w.text source) ++ ":"

def methodSelector? (source : String) (t : Tree) : Except Fault (Option String) := do
  match t.children.find? fun c => c.type == "selector" || c.type == "keyword_selector" with
  | some c =>
    if c.type = "selector" then return some (← c.text source)
    else
      let words ← keywords source c
      return if words.isEmpty then none else some (String.join words)
  | none =>
    match ← t.textOfType? source "identifier" with
    | none => return none
    | some name =>
      if name = "" then return none
      else if t.children.any fun c => c.type == "method_parameter" then return some (name ++ ":")
      else return some name

def setType (types : Table String String) (key type : String) (name : Option String) : Table String String :=
  match name with
  | some name => if name = "" then types else types.set (key ++ name) type
  | none => types

/-- Adds the type of a node with type arguments; `above` are the nodes around it, nearest first. -/
def addGenericType (source : String) (types : Table String String) (t : Tree) (above : List Tree) :
    Except Fault (Table String String) := do
  let type := (← t.text source) ++ " *"
  match above with
  | parent :: rest =>
    match parent.type with
    | "declaration" => return setType types "" type (← identifier? source parent)
    | "parameter_declaration" => return setType types "" type (← identifier? source parent)
    | "function_definition" => return setType types "__return:" type (← functionName? source parent)
    | "struct_declaration" =>
      match rest with
      | owner :: _ =>
        if owner.type = "property_declaration" || owner.type = "instance_variable" then
          return setType types "" type (← identifier? source parent)
        else return types
      | [] => return types
    | "type_name" =>
      match rest with
      | _ :: owner :: _ =>
        if owner.type = "method_parameter" then
          return setType types "" type (← identifier? source owner)
        else if owner.type = "method_declaration" || owner.type = "method_definition" then
          return setType types "__return:" type (← methodSelector? source owner)
        else return types
      | _ => return types
    | _ => return types
  | [] => return types

mutual

def addGenerics (source : String) (above : List Tree) (types : Table String String) :
    Tree → Except Fault (Table String String)
  | .node type a b cs f =>
    let t := Tree.node type a b cs f
    if type = "generic_specifier" then addGenericType source types t above
    else addGenericsList source (t :: above) types cs

def addGenericsList (source : String) (above : List Tree) (types : Table String String) :
    List Tree → Except Fault (Table String String)
  | [] => .ok types
  | c :: cs => do addGenericsList source above (← addGenerics source above types c) cs

end

def ofFile (fs : Files) (path : Path) : Except Fault (Table String String) :=
  match fs.find? path with
  | none => .ok {}
  | some text => addGenerics text [] {} (fs.treeOf text)

end ObjcLowering.TypeArguments
