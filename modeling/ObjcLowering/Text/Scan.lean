import ObjcLowering.Text.Basic

namespace ObjcLowering.Text

universe u

abbrev Pattern (α : Type u) := (lineStart : Bool) → List Char → Option (α × List Char)

/-- All finds from left to right without overlap; `skip` characters of the last find are still to be
passed over. -/
def findAllFrom {α : Type u} (p : Pattern α) : (skip : Nat) → (lineStart : Bool) → List Char → List α
  | _, _, [] => []
  | k + 1, _, c :: s => findAllFrom p k (c == '\n') s
  | 0, lineStart, c :: s =>
    match p lineStart (c :: s) with
    | some (a, rest) => a :: findAllFrom p (s.length - rest.length) (c == '\n') s
    | none => findAllFrom p 0 (c == '\n') s

def findAll {α : Type u} (p : Pattern α) (s : String) : List α := findAllFrom p 0 true s.toList

def find? {α : Type u} (p : Pattern α) (s : String) : Option α := (findAll p s).head?

def matches? {α : Type u} (p : Pattern α) (s : String) : Bool := (find? p s).isSome

namespace Chars

def afterBlanks? : List Char → Option (List Char)
  | c :: s => if isBlank c then some (trimLeft s) else none
  | [] => none

def word? (s : List Char) : Option (List Char × List Char) :=
  let w := s.takeWhile isWord
  if w.isEmpty then none else some (w, s.dropWhile isWord)

end Chars

end ObjcLowering.Text
