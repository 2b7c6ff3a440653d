import ObjcLowering.Source.Reading
import ObjcLowering.Text.Case

namespace ObjcLowering.DispatchTables

abbrev Tally := List (Option String × Nat)

def Tally.add (name : Option String) (n : Nat) : Tally → Tally
  | [] => [(name, n)]
  | (m, k) :: rest => if m = name then (m, k + n) :: rest else (m, k) :: Tally.add name n rest

structure Metadata where
  classes : List (Option String) := []
  categories : Nat := 0
  protocols : List String := []
  methods : Nat := 0
  methodsPerClass : Tally := []
  instanceMethods : Tally := []
  classMethods : Tally := []
  selectors : List String := []
  deriving Inhabited, Repr

def Metadata.maxMethods (m : Metadata) : Nat :=
  if m.methodsPerClass.isEmpty then 4 else (m.methodsPerClass.map (·.2)).foldl max 0

def isClassMethod (source : String) (method : Tree) : Except Fault Bool :=
  (method.text source).map fun text => Text.begins "+" (Text.trimLeft text)

def colonLast : List String → List String
  | [] => [":"]
  | parts => parts.dropLast ++ [parts.getLast?.getD "" ++ ":"]

def selectorParts (source : String) : (parts : List String) → List Tree → Except Fault (List String)
  | parts, [] => .ok parts
  | parts, c :: cs => do
    if c.type = "compound_statement" then return parts
    else if c.type = "identifier" then selectorParts source (parts ++ [← c.text source]) cs
    else if c.type = "method_parameter" then selectorParts source (colonLast parts) cs
    else selectorParts source parts cs

def selectorOf (source : String) (method : Tree) : Except Fault String := do
  let rest := (method.children.dropWhile fun c => c.type != "method_type").filter
    fun c => c.type != "method_type"
  return String.join (← selectorParts source [] rest)

structure AccessorNames where
  isReadonly : Bool := false
  getter : String := ""
  setter : String := ""
  deriving Inhabited, Repr

def trimParens (s : String) : String :=
  let isParen (c : Char) : Bool := c = '(' || c = ')'
  .ofList (Text.Chars.trimRightBy isParen (s.toList.dropWhile isParen))

def AccessorNames.addText (names : AccessorNames) (text : String) : AccessorNames :=
  let names := if Text.has "readonly" text then { names with isReadonly := true } else names
  (Text.splitBy ',' (trimParens text)).foldl
    (fun names part =>
      let part := Text.trim part
      match Text.after? "getter=" part with
      | some getter => { names with getter }
      | none =>
        match Text.after? "setter=" part with
        | some setter => { names with setter }
        | none => names) names

/-- The name among the parts of a declaration in reverse: an identifier, or else the last identifier
of a declarator that is not empty. -/
def declaredName (source : String) : (name : String) → List Tree → Except Fault String
  | name, [] => .ok name
  | name, c :: cs => do
    if c.type = "identifier" then c.text source
    else if c.type = "struct_declarator" then
      match c.children.reverse.find? fun d => d.type == "identifier" with
      | some id =>
        let name ← id.text source
        if name != "" then return name else declaredName source name cs
      | none => if name != "" then return name else declaredName source name cs
    else declaredName source name cs

def setterSelector (name : String) : String :=
  match name.toList with
  | [] => "set:"
  | c :: cs => "set" ++ String.ofList (Text.capital c ++ cs) ++ ":"

def propertySelectors (source : String) (prop : Tree) : Except Fault (List String) := do
  let texts ← (prop.children.filter fun c => c.type == "property_attributes_declaration").mapM
    fun c => c.text source
  let names := texts.foldl AccessorNames.addText {}
  let name ← match prop.childOfType? "struct_declaration" with
    | some decl => declaredName source "" decl.children.reverse
    | none => pure ""
  if name = "" then return []
  let getter := if names.getter = "" then name else names.getter
  let setter := if names.setter = "" then setterSelector name else names.setter
  return if names.isReadonly then [getter] else [getter, setter]

def Metadata.addMethod (source : String) (cls : Option String) (isCategory : Bool) (m : Metadata)
    (method : Tree) : Except Fault Metadata := do
  let selector ← selectorOf source method
  let m := if selector = "" then m else { m with selectors := addNew m.selectors selector }
  if isCategory then return m
  else if ← isClassMethod source method then
    return { m with classMethods := m.classMethods.add cls 1 }
  else return { m with instanceMethods := m.instanceMethods.add cls 1 }

def Metadata.addImplementation (source : String) (m : Metadata) (impl : Tree) :
    Except Fault Metadata := do
  let cls ← impl.textOfType? source "identifier"
  let isCategory := (impl.childByField? "category").isSome
  let methods := impl.ofType "method_definition"
  let m :=
    if isCategory then { m with categories := m.categories + 1 }
    else { m with classes := addNew m.classes cls }
  let m := { m with methods := m.methods + methods.length }
  let m ← methods.foldlM (Metadata.addMethod source cls isCategory) m
  if isCategory then return m
  else return { m with methodsPerClass := m.methodsPerClass.add cls methods.length }

def Metadata.addSource (fs : Files) (m : Metadata) (path : String) : Except Fault Metadata := do
  let source ← fs.readAt (← fs.placeOf path)
  let root := fs.treeOf source
  let m ← (root.ofType "class_implementation").foldlM (Metadata.addImplementation source) m
  let props := (root.ofType "class_interface").flatMap fun t => t.ofType "property_declaration"
  let accessors ← props.mapM (propertySelectors source)
  let protocols ← (root.ofType "protocol_declaration").mapM fun t =>
    t.textOfType? source "identifier"
  return { m with
    selectors := addAllNew m.selectors accessors.flatten
    protocols := addAllNew m.protocols (protocols.filterMap id) }

def Metadata.ofSources (fs : Files) (paths : List String) : Except Fault Metadata :=
  paths.foldlM (Metadata.addSource fs) {}

end ObjcLowering.DispatchTables
