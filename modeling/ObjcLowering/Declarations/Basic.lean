import ObjcLowering.Declarations.Origin
import ObjcLowering.Module.Basic

namespace ObjcLowering.Declarations

open Ast

def enumLine (index : Nat) (c : Node) : String :=
  let value := match c.inner with
    | v :: _ =>
      if v.kind = "IntegerLiteral" || v.kind = "ConstantExpr" then
        match v.attrs.value with
        | some .null => none
        | v => v
      else none
    | [] => none
  match value with
  | some v => s!"\t{c.name} = {v},"
  | none => if index = 0 then s!"\t{c.name} = 0," else s!"\t{c.name},"

def braced (head : String) (lines : List String) : String :=
  head ++ " \x7b\n" ++ Text.join "\n" lines ++ "\n\x7d;"

def addEnum (m : Module) (n : Node) : Module :=
  let lines := n.inner.zipIdx.filterMap fun (c, i) =>
    if c.kind = "EnumConstantDecl" then some (enumLine i c) else none
  let key := s!"enum {n.name}"
  if lines.isEmpty then m else { m with typeDefs := m.typeDefs.set key (braced key lines) }

def fieldLines (n : Node) : Except Fault (List String) :=
  (n.inner.filter fun c => c.kind == "FieldDecl").mapM fun c => do
    let type ← c.qualType
    return s!"\t{type} {c.name};"

def recordKey (tag : Json) (n : Node) : String :=
  let tag := n.attrs.tagUsed.getD tag
  s!"{tag} {n.name}"

def addUnion (m : Module) (n : Node) : Except Fault Module := do
  let key := recordKey "union" n
  let lines ← fieldLines n
  return if lines.isEmpty then m
    else { m with typeDefs := m.typeDefs.set key (braced key lines) }

def addStruct (m : Module) (n : Node) : Except Fault Module := do
  let key := recordKey "struct" n
  let lines ← fieldLines n
  return if lines.isEmpty || m.typeDefs.has key then m
    else { m with typeDefs := m.typeDefs.set key (braced key lines) }

def property (n : Node) : Except Fault Property := do
  return {
    name := n.name
    type := ⟨← n.qualType⟩
    isReadonly := n.attrs.isReadonly.getD (.bool false)
    isNonatomic := n.attrs.isNonatomic.getD (.bool false)
    ownership :=
      if n.attrs.isUnretained then "unsafe_unretained"
      else if n.attrs.isAssign && !n.attrs.isStrong then "assign"
      else "strong"
    getter := (n.attrs.getter.present?.bind (·.name)).filter (· != .null)
    setter := (n.attrs.setter.present?.bind (·.name)).filter (· != .null) }

def weakPropertyError (name : Name) : String :=
  s!"'weak' property '{name}' is not supported; use 'unsafe_unretained' instead"

def ivar (n : Node) : Except Fault Ivar := do
  let type ← n.attrs.type.get
  return {
    name := n.name
    type := ⟨type.desugared.getD (type.qual.getD "")⟩
    access := n.attrs.access.getD "protected" }

def param (n : Node) : Except Fault Param := do
  return { name := n.name, type := ⟨← n.qualType⟩ }

def bodyOf (n : Node) : Option Node := (n.inner.filter fun c => c.kind == "CompoundStmt").getLast?

def paramsOf (n : Node) : Except Fault (List Param) :=
  (n.inner.filter fun c => c.kind == "ParmVarDecl").mapM param

def method? (n : Node) : Except Fault (Option Method) := do
  if !n.name.holds then return none
  return some
    { selector := n.name
      returnType := ⟨(← n.attrs.returnType.get).qual.getD "void"⟩
      params := ← paramsOf n
      isClassMethod := n.attrs.isClassLevel
      body := bodyOf n }

def methodsOf (n : Node) : Except Fault (List Method) :=
  (n.inner.filter fun c => c.kind == "ObjCMethodDecl").filterMapM method?

def superName (n : Node) : Except Fault (Option Name) := do
  return (← n.attrs.superDecl.get).name.filter (· != .null)

def protocolNames (n : Node) : Except Fault (List Name) := do
  let listed ← (← n.attrs.protocols).mapM fun p => do return (← p.get).name.getD ""
  let children := (n.inner.filter fun c => c.kind == "ObjCProtocol").map Node.name
  return addAllNew (listed.filter Json.holds) (children.filter Json.holds)

def learnSuper (cls : ClassDecl) (name : Option Name) : ClassDecl :=
  if (stated? cls.superclass).isNone && (stated? name).isSome then { cls with superclass := name }
  else cls

def addInterface (m : Module) (n : Node) : Except Fault Module := do
  if !n.name.holds then return m
  let superclass ← superName n
  let protocols ← protocolNames n
  let ivars ← (n.inner.filter fun c => c.kind == "ObjCIvarDecl").mapM ivar
  let declared := n.inner.filter fun c => c.kind == "ObjCPropertyDecl"
  let all ← declared.mapM fun c => do return (c.attrs.isWeak, ← property c)
  let properties := (all.filter fun p => !p.1).map (·.2)
  let weak := (all.filter (·.1)).map fun p => weakPropertyError p.2.name
  let name ← n.name.asKey
  let m := { m with errors := m.errors ++ weak }
  match m.class? name with
  | none =>
    return { m with classes := m.classes.set name { name, superclass, ivars, protocols, properties } }
  | some cls =>
    let cls := learnSuper cls superclass
    let cls := if ivars.isEmpty then cls else { cls with ivars }
    let cls := if protocols.isEmpty then cls else { cls with protocols }
    let cls := if properties.isEmpty then cls else { cls with properties }
    return { m with classes := m.classes.set name cls }

def unsupportedSelectors : List Name :=
  ["forwardInvocation:", "addObserver:forKeyPath:options:context:", "removeObserver:forKeyPath:",
   "removeObserver:forKeyPath:context:", "observeValueForKeyPath:ofObject:change:context:",
   "willChangeValueForKey:", "didChangeValueForKey:"]

def linkIvar (name ivar : Name) : List Property → List Property
  | [] => []
  | p :: ps => if p.name = name then { p with ivar := some ivar } :: ps else p :: linkIvar name ivar ps

def linkProperty (cls : ClassDecl) (n : Node) : Except Fault ClassDecl := do
  let name := (← n.attrs.propertyDecl.get).name.getD ""
  if !name.holds then return cls
  let ivar := (← n.attrs.ivarDecl.get).name.getD ""
  return if ivar.holds then { cls with properties := linkIvar name ivar cls.properties } else cls

def blockVar? (n : Node) : Except Fault (Option StaticVar) := do
  if n.kind != "VarDecl" || !(n.inner.any fun c => c.kind == "BlocksAttr") then return none
  let type ← n.qualType
  return if n.name.holds && type.holds then
    some { name := n.name, type := ⟨type⟩, init := initValue n }
  else none

def blockVars (n : Node) : Except Fault (List StaticVar) := n.preorder.filterMapM blockVar?

def changeClass (m : Module) (name : Name) (f : ClassDecl → Except Fault ClassDecl) :
    Except Fault Module :=
  match m.class? name with
  | some cls => do return { m with classes := m.classes.set name (← f cls) }
  | none => .ok m

def addImplementationPart (name : Name) (m : Module) (n : Node) : Except Fault Module :=
  if n.kind = "ObjCIvarDecl" then
    changeClass m name fun cls => do return { cls with ivars := cls.ivars ++ [← ivar n] }
  else if n.kind = "ObjCMethodDecl" then do
    if n.attrs.isImplicit then return m
    match ← method? n with
    | none => return m
    | some method =>
      if unsupportedSelectors.contains (← method.selector.asKey) then
        return m.fail s!"'{method.selector}' is not supported (class '{name}')"
      let shared ← match method.body with
        | some body => blockVars body
        | none => pure []
      changeClass { m with statics := m.statics ++ shared } name fun cls =>
        .ok { cls with methods := cls.methods ++ [method] }
  else if n.kind = "ObjCPropertyImplDecl" then changeClass m name fun cls => linkProperty cls n
  else .ok m

def addImplementation (m : Module) (n : Node) : Except Fault Module := do
  if !n.name.holds then return m
  let superclass ← superName n
  let name ← n.name.asKey
  let cls := (m.class? name).getD { name, superclass }
  let m := { m with classes := m.classes.set name (learnSuper cls superclass) }
  n.inner.foldlM (addImplementationPart name) m

def addProtocol (m : Module) (n : Node) : Except Fault Module := do
  if !n.name.holds then return m
  let methods ← methodsOf n
  let name ← n.name.asKey
  return { m with protocols := m.protocols.set name { name, methods } }

def addCategory (m : Module) (n : Node) : Except Fault Module := do
  let name := (n.attrs.interfaceDecl.present?.bind (·.name)).getD ""
  if !name.holds then return m
  let name ← name.asKey
  let methods ← methodsOf n
  let cls := (m.class? name).getD { name }
  return { m with
    classes := m.classes.set name { cls with methods := mergeMethods cls.methods methods } }

def hasObjectParam (params : List Param) : Except Fault Bool :=
  params.anyM fun p => do return (← p.type.checked).isObject

def usesObjects (body : Node) (returnType : SourceType) (params : List Param) :
    Except Fault Bool :=
  if hasObjectNodes body || returnType.isObject then .ok true else hasObjectParam params

def addFunction (m : Module) (n : Node) : Except Fault Module := do
  let isStatic := n.attrs.storageClass == some "static"
  if !n.name.holds || (isStatic && n.attrs.isInline) then return m
  let params ← paramsOf n
  match bodyOf n with
  | none => return m
  | some body =>
    let shared ← blockVars body
    let type ← (← n.qualTypeOr "int ()").textOr .unfit
    let returnType : SourceType := ⟨Text.trim (Text.before "(" type)⟩
    let function : Function :=
      { name := n.name
        returnType
        params
        body := some body
        usesObjects := ← usesObjects body returnType params
        isStatic }
    return { m with statics := m.statics ++ shared, functions := m.functions ++ [function] }

def initializerWarning (name type : Json) : String :=
  s!"warning: static variable '{name}' with ObjC type '{type}' has unsupported initializer; "
    ++ "declare without initializer and assign in +initialize"

def addStatic (m : Module) (n : Node) : Except Fault Module := do
  if !n.name.holds then return m
  let raw ← n.qualType
  if !raw.holds then return m
  let type : SourceType := ⟨raw⟩
  match initValue n with
  | none =>
    if ← hasInitializer n then
      return if (← type.checked).isObject then m.warn (initializerWarning n.name raw) else m
    return { m with statics := m.statics ++ [{ name := n.name, type }] }
  | some v => return { m with statics := m.statics ++ [{ name := n.name, type, init := some v }] }

def noteMainClass (m : Module) (n : Node) : Except Fault Module := do
  if n.name.holds then
    if ← isFromMainFile n then return { m with mainClasses := addNew m.mainClasses n.name }
  return m

def addRecord (m : Module) (n : Node) (lastFile : Json) : Except Fault Module := do
  if ← isStubType n lastFile then
    if n.attrs.tagUsed == some "union" then addUnion m n else return m
  else if ← isUserStruct n lastFile then addStruct m n
  else return m

def addVariable (m : Module) (n : Node) : Except Fault Module := do
  if ← isFromMainFile n then
    if n.attrs.storageClass == some "static" then
      if !(← isMacroExpanded n) then return ← addStatic m n
  return m

def addNode (m : Module) (n : Node) (lastFile : Json) : Except Fault Module :=
  match n.kind with
  | "ObjCInterfaceDecl" => addInterface m n
  | "ObjCImplementationDecl" => do noteMainClass (← addImplementation m n) n
  | "ObjCProtocolDecl" => addProtocol m n
  | "ObjCCategoryDecl" => addCategory m n
  | "ObjCCategoryImplDecl" => addCategory m n
  | "FunctionDecl" => do if ← isFromMainFile n then addFunction m n else return m
  | "EnumDecl" => do
    if ← isStubType n lastFile then return addEnum m n
    if ← isUserEnum n lastFile then return addEnum m n
    return m
  | "RecordDecl" => addRecord m n lastFile
  | "VarDecl" => addVariable m n
  | _ => .ok m

def closedKinds : List String :=
  ["ObjCImplementationDecl", "ObjCProtocolDecl", "ObjCCategoryDecl", "ObjCCategoryImplDecl",
   "FunctionDecl", "EnumDecl", "RecordDecl", "VarDecl"]

def nextFile (n : Node) (lastFile : Json) : Except Fault Json :=
  match n.attrs.loc with
  | .absent => .ok lastFile
  | .present loc => .ok (loc.file.getD lastFile)
  | .alien j => do if ← j.mentions "file" then throw .wrongValue else return lastFile

mutual

/-- Adds all that a tree declares. A node without a file stands in that of the node before it. -/
def addTree (m : Module) (lastFile : Json) : Node → Except Fault Module
  | .mk a ns => do
    let lastFile ← nextFile (.mk a ns) lastFile
    let m ← addNode m (.mk a ns) lastFile
    if closedKinds.contains a.kind then return m else addTrees m lastFile ns

def addTrees (m : Module) (lastFile : Json) : List Node → Except Fault Module
  | [] => .ok m
  | n :: ns => do
    let lastFile ← nextFile n lastFile
    addTrees (← addTree m lastFile n) lastFile ns

end

end ObjcLowering.Declarations
