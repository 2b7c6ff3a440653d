import ObjcLowering.Source.Reading
import ObjcLowering.Text.Scan

namespace ObjcLowering.TestMain

open Text

def afterVoidParams? (s : List Char) : Option (List Char) := do
  let s ← Chars.after? "(".toList (Chars.trimLeft s)
  let s ← Chars.after? "void".toList (Chars.trimLeft s)
  Chars.after? ")".toList (Chars.trimLeft s)

def afterVoid? (lineStart : Bool) (s : List Char) : Option (List Char) := do
  if !lineStart then none
  else
    let s ← Chars.after? "void".toList (Chars.trimLeft s)
    Chars.afterBlanks? s

def testHead : Pattern String := fun lineStart s => do
  let s ← afterVoid? lineStart s
  let s ← Chars.after? "test_".toList s
  let (word, s) ← Chars.word? s
  let s ← afterVoidParams? s
  return ("test_" ++ String.ofList word, s)

def fixedHead (name : String) : Pattern Unit := fun lineStart s => do
  let s ← afterVoid? lineStart s
  let s ← Chars.after? name.toList s
  let s ← afterVoidParams? s
  return ((), s)

structure Suite where
  names : List String := []
  hasSetUp : Bool := false
  hasTearDown : Bool := false
  deriving DecidableEq, Inhabited, Repr

def Suite.addText (suite : Suite) (text : String) : Suite where
  names := suite.names ++ findAll testHead text
  hasSetUp := suite.hasSetUp || matches? (fixedHead "setUp") text
  hasTearDown := suite.hasTearDown || matches? (fixedHead "tearDown") text

def Suite.ofFiles (fs : Files) (paths : List Path) : Except Fault Suite :=
  paths.foldlM (fun suite p => do return suite.addText (← fs.readLines p)) {}

def Suite.mainText (suite : Suite) : String :=
  let externs := join "\n" (suite.names.map fun n => s!"extern void {n}(void);")
  let runs := join "\n\t" (suite.names.map fun n => s!"RUN_TEST({n});")
  let setUp := if suite.hasSetUp then "extern void setUp(void);" else "void setUp(void) \x7b\x7d"
  let tearDown :=
    if suite.hasTearDown then "extern void tearDown(void);" else "void tearDown(void) \x7b\x7d"
  "/* Auto-generated by gen_test_main.py -- do not edit */\n#include \"unity.h\"\n\n"
    ++ externs ++ "\n\n" ++ setUp ++ "\n" ++ tearDown
    ++ "\n\nint main(void)\n\x7b\n\tUNITY_BEGIN();\n\t" ++ runs
    ++ "\n\treturn UNITY_END();\n\x7d\n"

def Suite.output (suite : Suite) : Except String String :=
  if suite.names.isEmpty then .error "gen_test_main: error: no test_* functions found\n"
  else .ok suite.mainText

end ObjcLowering.TestMain
