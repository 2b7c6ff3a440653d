import ObjcLowering.Declarations.SourceText
import ObjcLowering.Program.Options

namespace ObjcLowering.Program

inductive Command
  | lower (inputs : List String) (options : Options)
  | pools (inputs : List String) (pointer : Int) (output : String)
  | cycles (sources includeDirs : List String)
  | tables (sources : List String) (pools : Int) (output : String) (init : Option String)
  | merge (base added : String)
  | tests (sources : List String) (output : String)
  deriving Inhabited, Repr

/-- The values of options, in the order in which they were given. Words before any option stand under
the empty name. -/
abbrev Arguments := Table String (List String)

def argumentsFrom (option : String) (args : Arguments) : List String → Arguments
  | [] => args
  | word :: words =>
    match Text.after? "--" word with
    | some name => argumentsFrom name (args.set name ((args.find? name).getD [])) words
    | none => argumentsFrom option (args.set option ((args.find? option).getD [] ++ [word])) words

namespace Arguments

def all (args : Arguments) (option : String) : List String := (args.find? option).getD []

def has (args : Arguments) (option : String) : Bool := (args.find? option).isSome

def last? (args : Arguments) (option : String) : Option String := (args.all option).getLast?

def required (args : Arguments) (option : String) : Except Fault String :=
  match args.last? option with
  | some v => .ok v
  | none => .error .badOption

def number? (args : Arguments) (option : String) : Except Fault (Option Int) :=
  (args.last? option).mapM optionNumber

end Arguments

def optionsOf (args : Arguments) : Except Fault Options := do
  return { sources := args.all "sources"
           outdir := ← args.required "outdir"
           rootClass := (args.last? "root-class").getD "OZObject"
           poolSizes := (args.last? "pool-sizes").getD ""
           itemPoolSize := ← args.number? "item-pool-size"
           manifest := (args.last? "manifest").getD ""
           isVerbose := args.has "verbose"
           hasHeap := args.has "heap-support"
           isStrict := args.has "strict" }

def Command.ofWords : List String → Except Fault Command
  | [] => .error .badOption
  | command :: words => do
    let args := argumentsFrom "" {} words
    match command with
    | "lower" => return .lower (args.all "input") (← optionsOf args)
    | "pools" =>
      return .pools (args.all "input") ((← args.number? "pointer-size").getD 4)
        (← args.required "output")
    | "cycles" => return .cycles (args.all "sources") (args.all "include-dir")
    | "tables" =>
      return .tables (args.all "sources") ((← args.number? "n-pools").getD 0)
        (← args.required "output") (args.last? "dispatch-init-output")
    | "merge" =>
      match args.all "" with
      | [base, added] => return .merge base added
      | _ => throw .badOption
    | "tests" => return .tests (args.all "scan") (← args.required "output")
    | _ => throw .badOption

def includedName? (line : String) : Option String :=
  if Text.begins "#" (Text.trimLeft line) then
    (Declarations.quotedText? line.toList).map String.ofList
  else none

/-- Where the files that a file may refer to are looked for: its header, and what its directives name
in its own directory and in directories for includes. -/
def neighbours (includeDirs : List Path) (path : Path) (text : String) : List Path :=
  let dirs := Declarations.includePlaces path.parent ++ includeDirs
  let names := (path.withSuffix ".h").name :: (Text.lines text).filterMap includedName?
  dirs.flatMap fun dir => names.map fun name => dir.join (.ofText name)

def treePath (path : Path) : String := path.toText ++ ".cst.json"

end ObjcLowering.Program
