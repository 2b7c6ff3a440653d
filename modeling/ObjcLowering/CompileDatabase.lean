import ObjcLowering.Json.Reader
import ObjcLowering.Json.Writer
import ObjcLowering.Source.Files

namespace ObjcLowering.CompileDatabase

inductive Key
  | null
  | number (value : Rat)
  | infinite (negative : Bool)
  | undefined
  | text (s : String)
  | codes (points : List Nat)
  deriving DecidableEq, Inhabited, Repr

/-- Lists and objects are no keys. Truth values count as zero and one, and a number counts by its
value alone. -/
def keyOf : Json → Except Fault Key
  | .null => .ok .null
  | .bool b => .ok (.number (if b then 1 else 0))
  | .int n => .ok (.number n)
  | .real .undefined => .ok .undefined
  | .real x => .ok ((x.toRat?.map Key.number).getD (.infinite x.isNegative))
  | .text s => .ok (.text s)
  | .codes points => .ok (.codes points)
  | .list _ => .error .wrongValue
  | .object _ => .error .wrongValue

def fileOf : Json → Except Fault Json
  | .object members =>
    match members.lookup "file" with
    | some file => .ok file
    | none => .error .unknownName
  | _ => .error .wrongValue

def fileKey (entry : Json) : Except Fault Key := do keyOf (← fileOf entry)

/-- The entries of a database. An empty text or object has none; no other value but a list has
entries that can be used. -/
def entries : Json → Except Fault (List Json)
  | .list xs => .ok xs
  | .text "" => .ok []
  | .object [] => .ok []
  | _ => .error .wrongValue

def merge (base added : Json) : Except Fault (Option Json) := do
  if !added.holds then return none
  let added ← entries added
  let seen ← added.mapM fileKey
  let kept ← (← entries base).filterMapM fun e => do
    let key ← fileKey e
    return if seen.contains key then none else some e
  return some (.list (kept ++ added))

def fileText (db : Json) : String := db.spread 0 ++ "\n"

def readFile (fs : Files) (path : Path) : Except Fault Json :=
  if (fs.place path).toOption.any fun place => (fs.fileAt? place).isSome || fs.hasDirectory place then do
    Json.ofText (← fs.read path)
  else .ok (.list [])

def mergeFiles (fs : Files) (base added : Path) : Except Fault Files := do
  let db ← readFile fs base
  match ← merge db (← readFile fs added) with
  | some merged => fs.write base (fileText merged)
  | none => return fs

end ObjcLowering.CompileDatabase
