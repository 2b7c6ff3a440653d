import ObjcLowering.Json.Order
import ObjcLowering.Module.Basic

namespace ObjcLowering.Output

def banner : String := "/* Auto-generated by oz_transpile -- do not edit */\n"

def fileStem (cls : ClassDecl) : Name := if cls.stem = "" then cls.name else cls.stem

def headerName (stem : Name) : String := s!"{stem}_ozh.h"

def sourceName (stem : Name) : String := s!"{stem}_ozm.c"

def includeHeader (stem : Name) : String := "#include \"" ++ headerName stem ++ "\""

def stems (m : Module) : List Name := distinct (m.classes.values.map fileStem)

def allStems (m : Module) : Except Fault (List Name) := Json.sorted (stems m)

def otherStems (m : Module) (stem : Name) : Except Fault (List Name) :=
  Json.sorted ((stems m).filter (· != stem))

def unlines (xs : List String) : String := String.join (xs.map (· ++ "\n"))

def byId (m : Module) : List ClassDecl := m.classes.values.mergeSort fun a b => a.id ≤ b.id

end ObjcLowering.Output
