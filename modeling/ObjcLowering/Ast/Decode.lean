import ObjcLowering.Ast.Node

namespace ObjcLowering.Ast

/-- A place read from a member: only an object is a record. -/
def Slot.ofJson {α : Type} (read : Json → α) : Option Json → Slot α
  | none => .absent
  | some (.object ms) => .present (read (.object ms))
  | some j => .alien j

def TypeRef.ofJson (j : Json) : TypeRef where
  qual := j.member? "qualType"
  desugared := j.member? "desugaredQualType"

def Inclusion.ofJson (j : Json) : Inclusion where
  file := j.member? "file"
  isStated := j.holds

def Spot.ofJson (j : Json) : Spot where
  file := j.member? "file"
  line := j.member? "line"
  col := j.member? "col"
  offset := j.member? "offset"
  tokLen := j.member? "tokLen"
  includedFrom := .ofJson Inclusion.ofJson (j.member? "includedFrom")
  macroArgument := (j.member "isMacroArgExpansion").holds
  isStated := j.holds

def Place.ofJson (j : Json) : Place where
  toSpot := Spot.ofJson j
  expansion := .ofJson Spot.ofJson (j.member? "expansionLoc")
  spelling := .ofJson Spot.ofJson (j.member? "spellingLoc")

def Range.ofJson (j : Json) : Range where
  first := .ofJson Place.ofJson (j.member? "begin")
  last := .ofJson Place.ofJson (j.member? "end")

def DeclRef.ofJson (j : Json) : DeclRef where
  name := j.member? "name"

def innerFault? : Json → Option Fault
  | .list _ => none
  | j =>
    match j.elements with
    | .ok [] => none
    | .ok _ => some .unfit
    | .error f => some f

def Attrs.ofMembers (ms : List (String × Json)) : Attrs :=
  let j := Json.object ms
  let type (key : String) := Slot.ofJson TypeRef.ofJson (j.member? key)
  let decl (key : String) := Slot.ofJson DeclRef.ofJson (j.member? key)
  let flag (key : String) := (j.member key).holds
  { kind := ((j.member? "kind").map Json.plain).getD ""
    hasTextKind := ((j.member? "kind").map Json.isText).getD true
    name := j.member? "name"
    type := type "type"
    returnType := type "returnType"
    classType := type "classType"
    argType := type "argType"
    value := j.member? "value"
    opcode := j.member? "opcode"
    castKind := j.member? "castKind"
    receiverKind := j.member? "receiverKind"
    selector := j.member? "selector"
    storageClass := j.member? "storageClass"
    tagUsed := j.member? "tagUsed"
    access := j.member? "access"
    superDecl := decl "super"
    interfaceDecl := decl "interface"
    referencedDecl := decl "referencedDecl"
    decl := decl "decl"
    boundVar := decl "var"
    propertyDecl := decl "propertyDecl"
    ivarDecl := decl "ivarDecl"
    getter := decl "getter"
    setter := decl "setter"
    protocols := (((j.member? "protocols").getD (.list [])).elements).map fun ps =>
      ps.map fun p => .ofJson DeclRef.ofJson (some p)
    isClassLevel := match j.member? "instance" with
      | some (.bool false) => true
      | _ => false
    isImplicit := flag "isImplicit"
    isInline := flag "inline"
    isArrow := flag "isArrow"
    isPostfix := flag "isPostfix"
    isFreeIvar := flag "isFreeIvar"
    isByRef := flag "byref"
    hasElse := flag "hasElse"
    isComplete := flag "completeDefinition"
    isReadonly := j.member? "readonly"
    isNonatomic := j.member? "nonatomic"
    isWeak := flag "weak"
    isStrong := flag "strong"
    isAssign := flag "assign"
    isUnretained := flag "unsafe_unretained"
    loc := .ofJson Place.ofJson (j.member? "loc")
    range := .ofJson Range.ofJson (j.member? "range")
    hasInner := (j.member? "inner").isSome
    innerFault := (j.member? "inner").bind innerFault?
    isNull := ms.isEmpty }

namespace Node

mutual

def ofJson : Json → Node
  | .object ms => mk (Attrs.ofMembers ms) (ofMembers ms)
  | j => mk { isNull := !j.holds, isAlien := true } []

def ofMembers : List (String × Json) → List Node
  | [] => []
  | (name, j) :: ms => if name = "inner" then ofItems j else ofMembers ms

def ofItems : Json → List Node
  | .list js => ofList js
  | _ => []

def ofList : List Json → List Node
  | [] => []
  | j :: js => ofJson j :: ofList js

end

end Node

end ObjcLowering.Ast
