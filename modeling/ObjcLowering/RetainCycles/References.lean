import ObjcLowering.Source.Reading

namespace ObjcLowering.RetainCycles

def foundationClasses : List String :=
  ["Object", "Protocol", "OZString", "OZMutableString", "OZAutoreleasePool", "OZQ31", "OZArray",
   "OZDictionary", "OZLog"]

def nonObjectTypes : List String := ["id", "Class", "SEL", "IMP", "void"]

structure StrongRef where
  field : String
  target : String
  deriving DecidableEq, Inhabited, Repr

def interfaceName? (source : String) (iface : Tree) : Except Fault (Option String) := do
  let name ← iface.textOfType? source "identifier"
  return name.filter (· != "")

def superclassName? (source : String) (iface : Tree) : Except Fault (Option String) :=
  let refs := iface.children.filter fun c => c.type == "superclass_reference"
  match refs.findSome? fun r => r.childOfType? "identifier" with
  | some id => (id.text source).map some
  | none => .ok none

structure FieldParts where
  type : Option String := none
  name : Option String := none
  isPointer : Bool := false
  deriving Inhabited, Repr

def FieldParts.toRef? (parts : FieldParts) (known : List String) : Option StrongRef := do
  let type ← parts.type
  let name ← parts.name
  if type != "" && name != "" && parts.isPointer && known.contains type
      && !nonObjectTypes.contains type then
    some { field := name, target := type }
  else none

def lastText (source type : String) (t : Tree) (before : Option String) :
    Except Fault (Option String) :=
  t.children.foldlM
    (fun found c => if c.type = type then (c.text source).map some else .ok found) before

def isUnretainedQualifier (source : String) (t : Tree) : Except Fault Bool :=
  if t.type = "type_qualifier" then (t.text source).map (· == "__unsafe_unretained")
  else .ok false

def addFieldPart (source : String) (parts : Option FieldParts) (c : Tree) :
    Except Fault (Option FieldParts) :=
  match parts with
  | none => .ok none
  | some parts => do
    if c.type = "type_identifier" then
      return some { parts with type := some (← c.text source) }
    else if c.type = "pointer_declarator" then
      return some { parts with isPointer := true, name := ← lastText source "field_identifier" c parts.name }
    else if c.type = "field_identifier" then
      return some { parts with name := some (← c.text source) }
    else if ← isUnretainedQualifier source c then return none
    else return some parts

def fieldRef? (source : String) (known : List String) (decl : Tree) :
    Except Fault (Option StrongRef) := do
  if Text.has "__unsafe_unretained" (← decl.text source) then return none
  let parts ← decl.children.foldlM (addFieldPart source) (some {})
  return parts.bind fun p => p.toRef? known

def fieldRefs (source : String) (known : List String) (iface : Tree) :
    Except Fault (List StrongRef) := do
  let blocks := iface.children.filter fun c => c.type == "instance_variables"
  let decls := blocks.flatMap fun b => b.children.filter fun c => c.type == "field_declaration"
  let refs ← decls.mapM (fieldRef? source known)
  return refs.filterMap id

def addDeclaratorPart (source : String) (parts : FieldParts) (c : Tree) :
    Except Fault FieldParts := do
  if c.type = "identifier" then return { parts with name := some (← c.text source) }
  else if c.type = "pointer_declarator" then
    return { parts with isPointer := true, name := ← lastText source "identifier" c parts.name }
  else return parts

def addPropertyPart (source : String) (parts : Option FieldParts) (c : Tree) :
    Except Fault (Option FieldParts) :=
  match parts with
  | none => .ok none
  | some parts => do
    if c.type = "type_identifier" then
      return some { parts with type := some (← c.text source) }
    else if c.type = "struct_declarator" then
      return some (← c.children.foldlM (addDeclaratorPart source) parts)
    else if c.type = "identifier" || c.type = "pointer_declarator" then
      return some (← addDeclaratorPart source parts c)
    else if ← isUnretainedQualifier source c then return none
    else return some parts

def hasWeakAttribute (source : String) (prop : Tree) : Except Fault Bool :=
  (prop.children.filter fun c => c.type == "property_attributes_declaration").foldlM
    (fun found c => do
      if found then return true
      let text := Text.lowerAscii (← c.text source)
      return Text.has "assign" text || Text.has "unsafe_unretained" text) false

def propertyRef? (source : String) (known : List String) (prop : Tree) :
    Except Fault (Option StrongRef) := do
  if ← hasWeakAttribute source prop then return none
  let text ← prop.text source
  if Text.has "__unsafe_unretained" text then return none
  let decls := prop.children.filter fun c => c.type == "struct_declaration"
  let parts ← (decls.flatMap Tree.children).foldlM (addPropertyPart source) (some {})
  return parts.bind fun p => { p with isPointer := p.isPointer || Text.has "*" text }.toRef? known

structure ClassGraph where
  supers : Table String (Option String) := {}
  refs : Table String (List StrongRef) := {}
  known : List String := []
  deriving Inhabited, Repr

def addKnown (source : String) (root : Tree) (known : List String) :
    Except Fault (List String) := do
  let declared ← (root.ofType "class_interface").mapM (interfaceName? source)
  let implemented ← (root.ofType "class_implementation").mapM fun t =>
    t.textOfType? source "identifier"
  return addAllNew known ((declared ++ implemented).filterMap id)

def ClassGraph.addRef (g : ClassGraph) (cls : String) (ref : StrongRef) : ClassGraph :=
  if foundationClasses.contains ref.target then g
  else { g with refs := g.refs.set cls (addNew ((g.refs.find? cls).getD []) ref) }

def ClassGraph.addInterface (source : String) (g : ClassGraph) (iface : Tree) :
    Except Fault ClassGraph := do
  match ← interfaceName? source iface with
  | none => return g
  | some cls =>
    if foundationClasses.contains cls then return g
    let superName ← superclassName? source iface
    let g := if g.supers.has cls then g else { g with supers := g.supers.set cls superName }
    let fields ← fieldRefs source g.known iface
    let props ← (iface.ofType "property_declaration").mapM (propertyRef? source g.known)
    return (fields ++ props.filterMap id).foldl (fun g ref => g.addRef cls ref) g

def ClassGraph.ofFiles (fs : Files) (paths : List Path) : Except Fault ClassGraph := do
  let texts ← paths.mapM fs.read
  let known ← texts.foldlM (fun known text => addKnown text (fs.treeOf text) known) []
  texts.foldlM
    (fun g text => ((fs.treeOf text).ofType "class_interface").foldlM (ClassGraph.addInterface text) g)
    { known := known }

end ObjcLowering.RetainCycles
