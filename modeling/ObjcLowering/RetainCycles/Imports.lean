import ObjcLowering.Source.Reading

namespace ObjcLowering.RetainCycles

def quotedName? (s : List Char) : Option String :=
  match s with
  | '"' :: s =>
    let name := s.takeWhile (· != '"')
    if name.isEmpty || (s.dropWhile (· != '"')).isEmpty then none else some (.ofList name)
  | _ => none

def importedName? (line : String) : Option String := do
  let cs := line.toList
  let rest ← (Text.Chars.after? "#import".toList cs).or (Text.Chars.after? "#include".toList cs)
  match rest with
  | c :: _ => if Text.isBlank c then quotedName? (Text.Chars.trimLeft rest) else none
  | [] => none

/-- The file that a quoted name stands for. A name that ends like a directory stands for none. -/
def resolve? (fs : Files) (includeDirs : List Path) (source : Path) (name : String) : Option Path :=
  let candidates := (source.parent :: includeDirs).map fun dir => dir.join (Path.ofText name)
  if Text.ends "/" name || Text.ends "/." name then none
  else (candidates.find? fs.isFile).bind Path.normalize?

def importsOf (fs : Files) (includeDirs : List Path) (source : Path) : List Path :=
  match fs.find? source with
  | none => []
  | some text =>
    (Text.splitBy '\n' (Text.unifyNewlines text)).filterMap fun line =>
      (importedName? line).bind (resolve? fs includeDirs source)

def grow (fs : Files) (includeDirs : List Path) (found : List Path) : List Path :=
  addAllNew found ((found.flatMap (importsOf fs includeDirs)).filter fs.isFile)

def growTimes (fs : Files) (includeDirs : List Path) : Nat → List Path → List Path
  | 0, found => found
  | k + 1, found => growTimes fs includeDirs k (grow fs includeDirs found)

/-- The existing sources and all that they import, directly or through others. No chain of imports
is longer than the number of files. -/
def reachedFiles (fs : Files) (includeDirs sources : List Path) : List Path :=
  let start := distinct ((sources.filterMap Path.normalize?).filter fs.isFile)
  growTimes fs includeDirs fs.entries.length start

end ObjcLowering.RetainCycles
