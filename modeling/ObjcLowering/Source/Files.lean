import ObjcLowering.Fault
import ObjcLowering.Source.Path
import ObjcLowering.Source.Tree
import ObjcLowering.Table

namespace ObjcLowering

/-- Texts by path. A place is given by the steps to it from the working directory or the root. -/
structure Files where
  entries : List (Path × String) := []
  /-- The top-level nodes of the syntax trees of texts. The first entry for a text counts. -/
  trees : List (String × List Tree) := []
  directories : List (List String) := []
  deriving Inhabited, Repr

namespace Files

/-- The directory is the root, the working directory or above it, was made, or has a file below it. -/
def hasDirectory (fs : Files) (place : List String) : Bool :=
  place.all (fun step => step == ".." || step == "/") || fs.directories.contains place
    || fs.entries.any fun (p, _) => place.isPrefixOf p.steps && place.length < p.steps.length

def fileAt? (fs : Files) (place : List String) : Option String :=
  (fs.entries.find? fun (p, _) => p.steps == place).map (·.2)

def up : List String → List String
  | [] => [".."]
  | last :: back => if last = "/" then [last] else if last = ".." then ".." :: last :: back else back

def maxNameBytes : Nat := 255

/-- The place where a walk along the parts of a path ends; each part on the way has to be a directory.
`back` is the place so far in reverse. -/
def walk (fs : Files) : (back : List String) → List String → Except Fault (List String)
  | back, [] => .ok back.reverse
  | back, part :: parts =>
    if part = ".." then fs.walk (up back) parts
    else if part = "." then fs.walk back parts
    else if maxNameBytes < part.utf8ByteSize then .error .nameTooLong
    else if parts.isEmpty || fs.hasDirectory (part :: back).reverse then
      fs.walk (part :: back) parts
    else if (fs.fileAt? (part :: back).reverse).isSome then .error .notDirectory
    else .error .missingFile

def isPathText (s : String) : Bool := !s.toList.contains '\x00'

def place (fs : Files) (p : Path) : Except Fault (List String) :=
  if p.parts.all isPathText then fs.walk p.origin p.parts else .error .badPath

/-- The place that a text leads to, where a stroke at its end means a directory. No part of the text
is left out. -/
def placeOf (fs : Files) (s : String) : Except Fault (List String) :=
  let parts := (Text.splitBy '/' s).filter (· != "")
  if s = "" then .error .missingFile
  else if !isPathText s then .error .badPath
  else fs.walk (Path.ofText s).origin (if Text.ends "/" s then parts ++ ["."] else parts)

def find? (fs : Files) (p : Path) : Option String := (fs.place p).toOption.bind fs.fileAt?

def isFile (fs : Files) (p : Path) : Bool := (fs.find? p).isSome

def readAt (fs : Files) (place : List String) : Except Fault String :=
  match fs.fileAt? place with
  | some text => .ok text
  | none => .error (if fs.hasDirectory place then .isDirectory else .missingFile)

def read (fs : Files) (p : Path) : Except Fault String := do fs.readAt (← fs.place p)

def readLines (fs : Files) (p : Path) : Except Fault String := (fs.read p).map Text.unifyNewlines

def setText (place : List String) (text : String) : List (Path × String) → List (Path × String)
  | [] => [(.ofSteps place, text)]
  | (p, old) :: rest =>
    if p.steps == place then (p, text) :: rest else (p, old) :: setText place text rest

def writeAt (fs : Files) (place : List String) (text : String) : Except Fault Files :=
  if fs.hasDirectory place then .error .isDirectory
  else .ok { fs with entries := setText place text fs.entries }

def write (fs : Files) (p : Path) (text : String) : Except Fault Files := do
  fs.writeAt (← fs.place p) text

def writeTo (fs : Files) (s text : String) : Except Fault Files :=
  if Text.ends "/" s then do
    discard (fs.place (.ofText s))
    throw .isDirectory
  else do fs.writeAt (← fs.placeOf s) text

/-- The places that the parts of a path lead through, `back` being the place before them in reverse. -/
def placesFrom : (back : List String) → List String → List (List String)
  | _, [] => []
  | back, part :: parts =>
    let back := if part = ".." then up back else part :: back
    back.reverse :: placesFrom back parts

def addDirectory (fs : Files) (p : Path) : Files :=
  { fs with directories := addAllNew fs.directories (placesFrom p.origin p.parts) }

def makeDirectory (fs : Files) (p : Path) : Except Fault Files :=
  let places := placesFrom p.origin p.parts
  let isTaken (place : List String) : Bool := (fs.fileAt? place).isSome
  if places.dropLast.any isTaken then .error .notDirectory
  else if places.any isTaken then .error .fileExists
  else .ok (fs.addDirectory p)

def add (fs : Files) (p : Path) (text : String) (tree : List Tree) : Files :=
  let places := placesFrom p.origin p.parts
  { entries := setText (places.getLastD []) text fs.entries
    trees := (text, tree) :: fs.trees
    directories := addAllNew fs.directories places.dropLast }

/-- The syntax tree of a text. Where none is known it is a root without children. -/
def treeOf (fs : Files) (text : String) : Tree :=
  .node "translation_unit" 0 (byteLength text.toList) ((fs.trees.lookup text).getD []) none

end Files

end ObjcLowering
