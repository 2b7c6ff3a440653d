import ObjcLowering.Text.Basic

namespace ObjcLowering

inductive Tree
  | node (type : String) (start stop : Nat) (children : List Tree) (field : Option String)
  deriving Inhabited, Repr

namespace Tree

def type : Tree → String
  | node t _ _ _ _ => t

def start : Tree → Nat
  | node _ a _ _ _ => a

def stop : Tree → Nat
  | node _ _ b _ _ => b

def children : Tree → List Tree
  | node _ _ _ cs _ => cs

def field : Tree → Option String
  | node _ _ _ _ f => f

def childByField? (t : Tree) (name : String) : Option Tree :=
  t.children.find? fun c => c.field == some name

def childOfType? (t : Tree) (type : String) : Option Tree :=
  t.children.find? fun c => c.type == type

mutual

def preorder : Tree → List Tree
  | node t a b cs f => node t a b cs f :: preorderList cs

def preorderList : List Tree → List Tree
  | [] => []
  | c :: cs => preorder c ++ preorderList cs

end

def ofType (t : Tree) (type : String) : List Tree :=
  t.preorder.filter fun n => n.type == type

end Tree

def byteLength (s : List Char) : Nat := (s.map Char.utf8Size).foldl (· + ·) 0

/-- The characters between two byte offsets, `here` being the offset of the text's start. A bound
inside a character leaves no text. -/
def sliceFrom (start stop : Nat) : (here : Nat) → List Char → Option (List Char)
  | _, [] => some []
  | here, c :: s =>
    let next := here + c.utf8Size
    if next ≤ start then sliceFrom start stop next s
    else if stop ≤ here then some []
    else if start ≤ here && next ≤ stop then (sliceFrom start stop next s).map (c :: ·)
    else none

/-- The text between two byte offsets; cut short at the end of the text, and nothing when a bound
lies inside a character. -/
def slice? (text : String) (start stop : Nat) : Option String :=
  if stop ≤ start then some "" else (sliceFrom start stop 0 text.toList).map .ofList

/-- The number of line feeds before a byte offset and the number of bytes after the last of them. An
offset beyond the text counts as its end. -/
def pointFrom (offset : Nat) : (here row lineStart : Nat) → List Char → Nat × Nat
  | here, row, lineStart, [] => (row, min offset here - lineStart)
  | here, row, lineStart, c :: s =>
    if offset ≤ here then (row, offset - lineStart)
    else
      let next := here + c.utf8Size
      if c = '\n' then pointFrom offset next (row + 1) next s else pointFrom offset next row lineStart s

def pointAt (text : String) (offset : Nat) : Nat × Nat := pointFrom offset 0 0 0 text.toList

end ObjcLowering
