import ObjcLowering.Patched.Nodes

namespace ObjcLowering.Patched

inductive Piece
  | text (s : String)
  | slot (key : String)
  deriving DecidableEq, Inhabited, Repr

def Piece.toText : Piece → String
  | text s => s
  | slot key => "\x7b\x7b " ++ key ++ " \x7d\x7d"

def outlineText (ps : List Piece) : String := String.join (ps.map Piece.toText)

def keptText (s : String) : List Piece := [.text (s ++ "\n")]

def slotLine (key : String) : List Piece := [.slot key, .text "\n"]

def silentTypes : List String :=
  ["@implementation", "identifier", "superclass_reference", "instance_variables", "(", ")",
   "declaration"]

def outlineMethod (source cls : String) (t : Tree) : Except Fault (List Piece) := do
  let selector ← selectorOf source t
  let sign := if isClassMethod t then "+" else "-"
  return .text ("\n/* " ++ sign ++ "[" ++ cls ++ " " ++ selector ++ "] */\n")
    :: slotLine (codeKey source t)

def outlineDefinition (source cls : String) (t : Tree) : Except Fault (List Piece) :=
  match t.children.head? with
  | some inner =>
    if inner.type = "method_definition" then outlineMethod source cls inner
    else if inner.type = "property_implementation" || inner.type = "declaration" then .ok []
    else (t.text source).map keptText
  | none => (t.text source).map keptText

def outlinePart (source cls : String) (t : Tree) : Except Fault (List Piece) :=
  if t.type = "@end" then .ok [.text ("/* @end " ++ cls ++ " */\n")]
  else if silentTypes.contains t.type then .ok []
  else if t.type = "implementation_definition" then outlineDefinition source cls t
  else if t.type = "comment" || Text.begins "preproc_" t.type then (t.text source).map keptText
  else do
    let text := Text.trim (← t.text source)
    return if text = "" then [] else keptText text

def outlineImplementation (source : String) (t : Tree) : Except Fault (List Piece) := do
  match ← declaredName? source t with
  | none => return [.text (← t.text source)]
  | some cls =>
    let parts ← t.children.mapM (outlinePart source cls)
    return .text ("/* @implementation " ++ cls ++ " */\n") :: slotLine (preambleKey source t)
      ++ parts.flatten

def forwardComment (word : String) (name : Option String) (header : String → String) : Piece :=
  .text ("/* @" ++ word ++ " " ++ ((name.map (· ++ " ")).getD "") ++ "— see "
    ++ header (name.getD "") ++ " */\n")

def outlineTop (source : String) (t : Tree) : Except Fault (List Piece) := do
  let text ← t.text source
  if t.type = "class_interface" || t.type = "category_interface" then
    return [forwardComment "interface" (← declaredName? source t) (· ++ "_ozh.h")]
  else if implementationTypes.contains t.type then outlineImplementation source t
  else if t.type = "protocol_declaration" then
    return [forwardComment "protocol" (← declaredName? source t) fun _ => "oz_dispatch.h"]
  else if ["preproc_include", "function_definition", "declaration"].contains t.type then
    return slotLine (codeKey source t)
  else return keptText text

def outline (source : String) (root : Tree) : Except Fault (List Piece) :=
  return (← root.children.mapM (outlineTop source)).flatten

end ObjcLowering.Patched
