import ObjcLowering.Fault
import ObjcLowering.Table
import ObjcLowering.Text.Integer

namespace ObjcLowering.Program

structure Options where
  sources : List String := []
  outdir : String
  rootClass : String := "OZObject"
  poolSizes : String := ""
  itemPoolSize : Option Int := none
  manifest : String := ""
  isVerbose : Bool := false
  hasHeap : Bool := false
  isStrict : Bool := false
  isTerminal : Bool := false
  deriving Inhabited, Repr

def optionNumber (text : String) : Except Fault Int :=
  match Text.integer? text with
  | some n => .ok n
  | none => .error .badOption

def isNegativeNumber (text : String) : Bool :=
  match text.toList with
  | '-' :: number =>
    let isDigits (s : List Char) : Bool := s.all fun c => (Text.digitValue? c).isSome
    match number.span (· != '.') with
    | (whole, []) => !whole.isEmpty && isDigits whole
    | (whole, _ :: fraction) => isDigits whole && !fraction.isEmpty && isDigits fraction
  | _ => false

def isValue (text : String) : Bool :=
  !Text.begins "-" text || text = "-" || isNegativeNumber text || Text.has " " text

def Options.check (o : Options) : Except Fault Unit :=
  if (o.outdir :: o.rootClass :: o.poolSizes :: o.manifest :: o.sources).all isValue then .ok ()
  else .error .badOption

def inDirectory (dir name : String) : String :=
  if Text.begins "/" name then name
  else if dir = "" || Text.ends "/" dir then dir ++ name else dir ++ "/" ++ name

def Options.foundationDir (o : Options) : String := inDirectory o.outdir "Foundation"

def poolSize? (text : String) : Except Fault (Option (String × Int)) :=
  match Text.cut? "=" (Text.trim text) with
  | some (name, count) =>
    match Text.integer? (Text.trim count) with
    | some n => .ok (some (Text.trim name, n))
    | none => .error .malformedInteger
  | none => .ok none

/-- Pool sizes, separated by commas. The last size of a name counts. -/
def poolSizes (text : String) : Except Fault (Table String Int) := do
  let sizes ← (Text.splitBy ',' text).mapM poolSize?
  return Table.ofList (sizes.filterMap id)

def nameStem (name : List Char) : List Char :=
  let back := name.reverse
  match back.dropWhile (· != '.') with
  | _ :: stem => if stem.all (· == '.') then name else stem.reverse
  | [] => name

def sourceStem (path : String) : String :=
  .ofList (nameStem ((Text.Chars.splitBy '/' path.toList).getLastD []))

end ObjcLowering.Program
