import ObjcLowering.Text.Basic

namespace ObjcLowering

/-- The declaration of a generated variable, which has to precede the uses of the variable. -/
structure TempDecl where
  name : String
  text : String
  deriving DecidableEq, Inhabited, Repr

/-- How a part of a statement is written: not at all, in braces, or as a statement that goes on. -/
inductive Form
  | absent
  | braced
  | chained
  deriving DecidableEq, Inhabited, Repr

inductive Code
  | line (depth : Nat) (text : String)
  | temp (depth : Nat) (decl : TempDecl)
  | declare (depth : Nat) (name text : String)
  | assign (depth : Nat) (target value : String)
  | retain (depth : Nat) (root value : String)
  | release (depth : Nat) (root value : String)
  | returns (depth : Nat) (value : Option String)
  | breaks (depth : Nat)
  | continues (depth : Nat)
  | label (depth : Nat) (text : String)
  | block (depth : Nat) (body : List Code)
  | branch (depth : Nat) (cond : String) (yesForm : Form) (yes : List Code) (noForm : Form)
      (no : List Code)
  | whileLoop (depth : Nat) (cond : String) (body : List Code)
  | doLoop (depth : Nat) (body : List Code) (cond : String)
  | forLoop (depth : Nat) (head : String) (form : Form) (body : List Code)
  | switchOn (depth : Nat) (cond : String) (body : List Code)
  deriving Inhabited, Repr

namespace Code

def openBrace : String := "\x7b\n"

def closeBrace (depth : Nat) : String := Text.tabs depth ++ "\x7d\n"

def countCall (root verb value : String) : String :=
  root ++ "_" ++ verb ++ "((struct " ++ root ++ " *)" ++ value ++ ");"

def partText (d : Nat) (form : Form) (text : String) : String :=
  match form with
  | .absent => ""
  | .braced => openBrace ++ text ++ closeBrace d
  | .chained => text

mutual

def render : Code → String
  | line d text => Text.tabs d ++ text ++ "\n"
  | temp d decl => Text.tabs d ++ decl.text ++ "\n"
  | declare d _ text => Text.tabs d ++ text ++ ";\n"
  | assign d target value => Text.tabs d ++ target ++ " = " ++ value ++ ";\n"
  | retain d root value => Text.tabs d ++ countCall root "retain" value ++ "\n"
  | release d root value => Text.tabs d ++ countCall root "release" value ++ "\n"
  | returns d (some value) => Text.tabs d ++ "return " ++ value ++ ";\n"
  | returns d none => Text.tabs d ++ "return;\n"
  | breaks d => Text.tabs d ++ "break;\n"
  | continues d => Text.tabs d ++ "continue;\n"
  | label d text => Text.tabs d ++ text ++ ":\n"
  | block d body => Text.tabs d ++ openBrace ++ renderAll body ++ closeBrace d
  | branch d cond yesForm yes noForm no =>
    Text.tabs d ++ "if (" ++ cond ++ ") " ++ partText d yesForm (renderAll yes)
      ++ (if noForm = .absent then "" else Text.tabs d ++ "else " ++ partText d noForm (renderAll no))
  | whileLoop d cond body =>
    Text.tabs d ++ "while (" ++ cond ++ ") " ++ openBrace ++ renderAll body ++ closeBrace d
  | doLoop d body cond =>
    Text.tabs d ++ "do " ++ openBrace ++ renderAll body ++ closeBrace d
      ++ Text.tabs d ++ "while (" ++ cond ++ ");\n"
  | forLoop d head form body =>
    Text.tabs d ++ "for (" ++ head ++ ") "
      ++ (if form = .absent then "\x7b\x7d\n" else partText d form (renderAll body))
  | switchOn d cond body =>
    Text.tabs d ++ "switch (" ++ cond ++ ") " ++ openBrace ++ renderAll body ++ closeBrace d

def renderAll : List Code → String
  | [] => ""
  | c :: cs => render c ++ renderAll cs

end

def renderPart (d : Nat) (form : Form) (body : List Code) : String := partText d form (renderAll body)

end Code

end ObjcLowering
