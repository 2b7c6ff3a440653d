import ObjcLowering.Module.Basic
import ObjcLowering.Source.Reading

namespace ObjcLowering.Patched

def implementationTypes : List String := ["class_implementation", "category_implementation"]

def placeKey (stem source : String) (t : Tree) : String :=
  let (row, column) := pointAt source t.start
  stem ++ toString (row + 1) ++ "_" ++ toString (column + 1)

def codeKey (source : String) (t : Tree) : String := placeKey "_n_" source t

def preambleKey (source : String) (t : Tree) : String := placeKey "_impl_" source t

def declaredName? (source : String) (t : Tree) : Except Fault (Option String) :=
  (t.textOfType? source "identifier").map (Option.filter (· != ""))

def methodOf? (t : Tree) : Option Tree :=
  if t.type = "implementation_definition" then
    t.children.head?.filter fun inner => inner.type == "method_definition"
  else none

def selectorPart (source : String) (t : Tree) : Except Fault String :=
  if t.type = "identifier" then t.text source
  else if t.type = "method_parameter" then
    .ok (Text.copies (t.children.filter fun c => c.type == ":").length ":")
  else .ok ""

def selectorOf (source : String) (t : Tree) : Except Fault String :=
  return String.join (← t.children.mapM (selectorPart source))

def isClassMethod (t : Tree) : Bool :=
  match t.children with
  | first :: _ => first.type = "+"
  | [] => false

def isPrototype (t : Tree) : Bool :=
  t.children.any fun c => c.type == "function_declarator"
    || (c.type == "pointer_declarator" && (c.childOfType? "function_declarator").isSome)

def textOf? (source : String) (t : Option Tree) : Except Fault (Option String) :=
  match t with
  | some t => (t.text source).map some
  | none => .ok none

def variableNode? (t : Tree) : Option Tree :=
  t.children.findSome? fun c =>
    if c.type = "identifier" then some c
    else if c.type = "pointer_declarator" || c.type = "init_declarator" then
      c.children.findSome? fun d =>
        if d.type = "identifier" then some d
        else if d.type = "pointer_declarator" then d.childOfType? "identifier"
        else none
    else none

def variableName? (source : String) (t : Tree) : Except Fault (Option String) :=
  textOf? source (variableNode? t)

def functionNode? (t : Tree) : Option Tree :=
  t.children.findSome? fun c =>
    if c.type = "function_declarator" then c.childOfType? "identifier"
    else if c.type = "pointer_declarator" then
      (c.children.filter fun d => d.type == "function_declarator").findSome? fun d =>
        d.childOfType? "identifier"
    else none

def functionName? (source : String) (t : Tree) : Except Fault (Option String) :=
  textOf? source (functionNode? t)

end ObjcLowering.Patched
