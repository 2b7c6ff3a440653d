import ObjcLowering.Module.Basic

namespace ObjcLowering.TypeArguments

open Ast

def given? (generics : Table String String) (name : Name) : Option String :=
  (name.text?.bind generics.find?).filter (· != "")

def enrich (generics : Table String String) (type : SourceType) (name : Name) : SourceType :=
  match given? generics name with
  | some text => if type.typeArguments.isEmpty then ⟨text⟩ else type
  | none => type

def returnKey (name : Name) : Name := .text s!"__return:{name}"

def accessorKeys (m : Method) : List Name :=
  if m.params.isEmpty then [returnKey m.selector] else m.params.map (·.name)

/-- The names under which the source may give the type of a property: its own where the class declares
it, and those in the methods that were made for it. -/
def propertyKeys (cls : ClassDecl) (p : Property) : List Name :=
  let isSame (q : Property) : Bool := p.serial.isSome && q.serial == p.serial
  (cls.properties.filter isSame).map (·.name)
    ++ (cls.methods.filter fun m => m.synthesized.any isSame).flatMap accessorKeys

def enrichProperty (generics : Table String String) (cls : ClassDecl) (p : Property) : Property :=
  let keys := if p.serial.isSome then propertyKeys cls p else [p.name]
  { p with type := keys.foldl (enrich generics) p.type }

def enrichParam (generics : Table String String) (p : Param) : Param :=
  { p with type := enrich generics p.type p.name }

def enrichMethod (generics : Table String String) (cls : ClassDecl) (m : Method) : Method :=
  let returnType := enrich generics m.returnType (returnKey m.selector)
  match m.synthesized.map (enrichProperty generics cls) with
  | none => { m with returnType, params := m.params.map (enrichParam generics) }
  | some p =>
    if m.params.isEmpty then { m with returnType := p.type, synthesized := some p }
    else { m with
      returnType
      params := m.params.map fun x => { x with type := p.type }
      synthesized := some p }

def enrichClass (generics : Table String String) (cls : ClassDecl) : ClassDecl :=
  { cls with
    ivars := cls.ivars.map fun v => { v with type := enrich generics v.type v.name }
    properties := cls.properties.map (enrichProperty generics cls)
    methods := cls.methods.map (enrichMethod generics cls) }

def enrichFunction (generics : Table String String) (f : Function) : Function :=
  { f with
    returnType := enrich generics f.returnType (returnKey f.name)
    params := f.params.map (enrichParam generics) }

def enrichGenerics (m : Module) : Module :=
  { m with
    classes := m.classes.mapValues (enrichClass m.generics)
    functions := m.functions.map (enrichFunction m.generics) }

def callableTypes (name : Name) (returnType : SourceType) (params : List Param) :
    List (Name × SourceType) :=
  (returnKey name, returnType) :: params.map fun p => (p.name, p.type)

def declaredTypes (m : Module) : List (Name × SourceType) :=
  (m.classes.values.flatMap fun c =>
    c.ivars.map (fun v => (v.name, v.type)) ++ c.properties.map (fun p => (p.name, p.type))
      ++ c.methods.flatMap fun x => callableTypes x.selector x.returnType x.params)
    ++ m.functions.flatMap fun f => callableTypes f.name f.returnType f.params

def checkGiven (m : Module) : Except Fault Unit := do
  if !m.generics.isEmpty then
    (declaredTypes m).forM fun (name, type) => do
      if (given? m.generics (← name.asKey)).isSome then discard type.checked

def classAliases : List (Name × Name) :=
  [("NSArray", "OZArray"), ("NSDictionary", "OZDictionary"), ("NSString", "OZString"),
   ("NSNumber", "OZQ31"), ("NSObject", "OZObject")]

def normalizeClass (name : Name) : Name := (classAliases.lookup name).getD name

/-- The names above and including a name, as far as they are classes, up to the first repetition. The
last name may lie outside the module. -/
def namesAbove (m : Module) : (fuel : Nat) → (visited : List Name) → Option Name → List Name
  | 0, _, _ => []
  | _, _, none => []
  | fuel + 1, visited, some name =>
    if !name.holds || visited.contains name then []
    else
      match m.class? name with
      | some cls => name :: namesAbove m fuel (name :: visited) cls.superclass
      | none => [name]

def lineage (m : Module) (name : Name) : List Name :=
  namesAbove m (m.classes.entries.length + 2) [] (some (normalizeClass name))

def conformsTo (m : Module) (cls protocol : Name) : Bool :=
  (lineage m cls).any fun name => ((m.class? name).map fun c => c.protocols.contains protocol).getD false

def isSameOrSubclass (m : Module) (cls target : Name) : Bool :=
  (lineage m cls).contains (normalizeClass target)

def className? (type : String) : Option String :=
  let t := Text.trim type
  if Text.begins "id" t then none
  else
    match t.toList with
    | c :: s =>
      if c.isAlpha || c = '_' then some (.ofList (c :: s.takeWhile Text.isWord)) else none
    | [] => none

def protocolOf? (type : String) : Option String := do
  let rest ← Text.Chars.after? "id<".toList type.toList
  let word := rest.takeWhile Text.isWord
  if word.isEmpty then none
  else
    match rest.dropWhile Text.isWord with
    | '>' :: _ => some (.ofList word)
    | _ => none

def dropArguments : List Char → List Char
  | [] => []
  | c :: s =>
    if c = '<' && ">".toList.isSuffixOf s && !s.contains '\n' then [] else c :: dropArguments s

def satisfies (m : Module) (type constraint : String) : Bool :=
  match protocolOf? constraint with
  | some required =>
    match protocolOf? type with
    | some own => own == required
    | none =>
      match className? type with
      | some cls => conformsTo m cls required
      | none => true
  | none =>
    let wanted := Text.trim (Text.trimRightBy (fun c => c = ' ' || c = '*') constraint)
    match className? type with
    | some cls => isSameOrSubclass m cls (.text (.ofList (dropArguments wanted.toList)))
    | none => true

def typeBelowCasts (n : Node) : Except Fault Json := n.belowCasts.qualType

def nameOr (type : String) : String := (className? type).getD type

def breaking? (m : Module) (constraint : String) (e : Node) : Except Fault (Option String) := do
  if constraint = "id" then return none
  let type ← typeBelowCasts e
  if !type.holds || type == "id" then return none
  let type ← type.textOr (if (protocolOf? constraint).isSome then .wrongValue else .unfit)
  return if satisfies m type constraint then none else some type

def elementError? (m : Module) (container constraint : String) (e : Node) :
    Except Fault (Option String) := do
  return (← breaking? m constraint e).map fun type =>
    s!"generic type mismatch: '{nameOr type}' does not satisfy "
      ++ s!"constraint '{constraint}' (required by '{container}<{constraint}>')"

def arrayErrors (m : Module) (literal : Node) (args : List String) (type : String) :
    Except Fault (List String) :=
  match args with
  | [] => .ok []
  | constraint :: _ => literal.inner.filterMapM (elementError? m (nameOr type) constraint)

def entryError (m : Module) (role container keys values constraint : String) (e : Node) :
    Except Fault (List String) := do
  match ← breaking? m constraint e with
  | some type =>
    return [s!"generic type mismatch: {role} '{nameOr type}' does not satisfy "
      ++ s!"constraint '{constraint}' (required by '{container}<{keys}, {values}>')"]
  | none => return []

def entryErrors (m : Module) (container keys values : String) :
    List Node → Except Fault (List String)
  | [] => .ok []
  | [key] => entryError m "key" container keys values keys key
  | key :: value :: rest => do
    let first ← entryError m "key" container keys values keys key
    let second ← entryError m "value" container keys values values value
    return first ++ second ++ (← entryErrors m container keys values rest)

def dictionaryErrors (m : Module) (literal : Node) (args : List String) (type : String) :
    Except Fault (List String) :=
  match args with
  | keys :: values :: _ => entryErrors m (nameOr type) keys values literal.inner
  | _ => .ok []

def literalErrors (m : Module) (literal : Node) (args : List String) (type : String) :
    Except Fault (List String) :=
  if literal.kind = "ObjCArrayLiteral" then arrayErrors m literal args type
  else if literal.kind = "ObjCDictionaryLiteral" then dictionaryErrors m literal args type
  else .ok []

structure GenericState where
  vars : Table Name (List String) := {}
  errors : List String := []
  deriving Inhabited, Repr

def checkVarDecl (m : Module) (s : GenericState) (n : Node) : Except Fault GenericState := do
  let own ← (SourceType.mk (← n.qualType)).checked
  if !n.name.holds then return s
  let name ← n.name.asKey
  let type : SourceType :=
    if own.typeArguments.isEmpty then
      match name.text?.bind m.generics.find? with
      | some text => ⟨text⟩
      | none => own
    else own
  let args := type.typeArguments
  if args.isEmpty then return s
  let errors ← n.inner.mapM fun c => literalErrors m c.belowCasts args type.spelling
  return { vars := s.vars.set name args, errors := s.errors ++ errors.flatten }

def argumentsOf (s : GenericState) (n : Node) : Except Fault (List String) := do
  if n.kind != "DeclRefExpr" then return []
  let own := (← (SourceType.mk (← n.qualType)).checked).typeArguments
  if !own.isEmpty then return own
  return (s.vars.find? (← (← n.referencedName).asKey)).getD []

def checkAssignment (m : Module) (s : GenericState) (n : Node) : Except Fault GenericState := do
  match n.inner with
  | left :: right :: _ =>
    let left := left.belowCasts
    let args ← argumentsOf s left
    if args.isEmpty then return s
    let type := (SourceType.mk (← left.qualType)).spelling
    return { s with errors := s.errors ++ (← literalErrors m right.belowCasts args type) }
  | _ => return s

mutual

def checkNode (m : Module) (s : GenericState) : Node → Except Fault GenericState
  | .mk a ns => do
    let s ←
      if a.kind = "VarDecl" then checkVarDecl m s (.mk a ns)
      else if a.kind = "BinaryOperator" && a.opcode == some "=" then checkAssignment m s (.mk a ns)
      else pure s
    checkNodes m s ns

def checkNodes (m : Module) (s : GenericState) : List Node → Except Fault GenericState
  | [] => .ok s
  | n :: ns => do checkNodes m (← checkNode m s n) ns

end

def bodyErrors (m : Module) (body : Option Node) : Except Fault (List String) :=
  match body with
  | some n => do return (← checkNode m {} n).errors
  | none => .ok []

def validate (m : Module) : Except Fault Module := do
  checkGiven m
  let m := enrichGenerics m
  let errors ← m.bodies.mapM (bodyErrors m)
  return { m with errors := m.errors ++ errors.flatten }

end ObjcLowering.TypeArguments
