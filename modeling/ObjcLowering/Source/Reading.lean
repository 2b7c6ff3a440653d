import ObjcLowering.Source.Files

namespace ObjcLowering

def sliceText (text : String) (start stop : Nat) : Except Fault String :=
  match slice? text start stop with
  | some s => .ok s
  | none => .error .cutCharacter

def Tree.text (source : String) (t : Tree) : Except Fault String := sliceText source t.start t.stop

def Tree.textOfType? (source : String) (t : Tree) (type : String) :
    Except Fault (Option String) :=
  match t.childOfType? type with
  | some c => (c.text source).map some
  | none => .ok none

end ObjcLowering
