import ObjcLowering.Text.Basic

namespace ObjcLowering

/-- A path as its parts; empty parts and `.` are dropped, `..` is kept. -/
structure Path where
  absolute : Bool := false
  parts : List String := []
  deriving DecidableEq, Inhabited, Repr

namespace Path

def ofText (s : String) : Path where
  absolute := Text.begins "/" s
  parts := (Text.splitBy '/' s).filter fun part => part != "" && part != "."

def toText (p : Path) : String :=
  if p.absolute then "/" ++ Text.join "/" p.parts
  else if p.parts.isEmpty then "."
  else Text.join "/" p.parts

def origin (p : Path) : List String := if p.absolute then ["/"] else []

def steps (p : Path) : List String := p.origin ++ p.parts

def ofSteps : List String → Path
  | "/" :: parts => { absolute := true, parts }
  | parts => { parts }

def name (p : Path) : String := p.parts.getLast?.getD ""

/-- Splits a file name before the last dot, unless that dot is its first or last character. -/
def splitName (name : List Char) : List Char × List Char :=
  let back := name.reverse
  let extension := back.takeWhile (· != '.')
  match back.dropWhile (· != '.') with
  | dot :: stem =>
    if stem.isEmpty || extension.isEmpty then (name, [])
    else (stem.reverse, dot :: extension.reverse)
  | [] => (name, [])

def stem (p : Path) : String := .ofList (splitName p.name.toList).1

def parent (p : Path) : Path := { p with parts := p.parts.dropLast }

def withSuffix (p : Path) (suffix : String) : Path :=
  { p with parts := p.parts.dropLast ++ [p.stem ++ suffix] }

def join (p q : Path) : Path :=
  if q.absolute then q else { p with parts := p.parts ++ q.parts }

/-- Resolves every `..` against the part before it. A relative path that leaves its start has no
result; above the root there is only the root. -/
def normalizeFrom (absolute : Bool) : (back : List String) → List String → Option (List String)
  | back, [] => some back.reverse
  | back, part :: parts =>
    if part = ".." then
      match back with
      | [] => if absolute then normalizeFrom absolute [] parts else none
      | _ :: back => normalizeFrom absolute back parts
    else normalizeFrom absolute (part :: back) parts

def normalize? (p : Path) : Option Path :=
  (normalizeFrom p.absolute [] p.parts).map fun parts => { p with parts }

end Path

end ObjcLowering
