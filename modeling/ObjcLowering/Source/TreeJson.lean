import ObjcLowering.Json.Basic
import ObjcLowering.Source.Tree

namespace ObjcLowering.Tree

def offsetOf (j : Json) : Nat := (j.int?.getD 0).toNat

mutual

def ofJson : Json → Tree
  | .list items => ofItems items
  | _ => node "" 0 0 [] none

def ofItems : List Json → Tree
  | type :: start :: stop :: rest =>
    node (type.text?.getD "") (offsetOf start) (offsetOf stop) (childrenOf rest) (fieldOf rest)
  | _ => node "" 0 0 [] none

def childrenOf : List Json → List Tree
  | .list js :: _ => ofList js
  | _ => []

def ofList : List Json → List Tree
  | [] => []
  | j :: js => ofJson j :: ofList js

def fieldOf : List Json → Option String
  | [_, field] => field.text?
  | _ => none

end

def listOfJson (j : Json) : List Tree := ofList j.items

end ObjcLowering.Tree
