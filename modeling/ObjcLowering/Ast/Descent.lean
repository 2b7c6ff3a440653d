import ObjcLowering.Ast.Node

namespace ObjcLowering.Ast.Node

def firstOf (a : Attrs) : List Node → Except Fault Node
  | n :: _ => n.check
  | [] => do
    a.checkInner
    if a.hasInner then throw .outOfRange
    return blank

def firstChild (n : Node) : Except Fault Node := firstOf n.attrs n.inner

mutual

def descend (p : Attrs → Bool) : Node → Except Fault Node
  | mk a ns => if p a then descendFirst p a ns else (mk a ns).check

def descendFirst (p : Attrs → Bool) (a : Attrs) : List Node → Except Fault Node
  | n :: _ => descend p n
  | [] => firstOf a []

end

end ObjcLowering.Ast.Node
