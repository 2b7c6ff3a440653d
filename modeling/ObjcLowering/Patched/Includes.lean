import ObjcLowering.Declarations.SourceText

namespace ObjcLowering.Patched

def ownImports : List String :=
  ["Foundation/", "Foundation.h", "objc/", "objc.h", "OZObject", "OZLog", "OZString", "OZArray",
   "OZDictionary", "OZQ31"]

/-- The header of a directory's file that a directive names, if it declares classes. -/
def classHeader? (fs : Files) (directive : String) (dir : Option Path) : Option Path := do
  let dir ← dir
  let name ← Declarations.quotedText? directive.toList
  if Declarations.leadsToClasses fs dir (.ofList name) then some (.ofText (.ofList name)) else none

/-- The line for a directive: nothing for an own import, the generated header for a header with
classes, and an include for any other import. -/
def includeText (fs : Files) (text : String) (dir : Option Path) : String :=
  let directive := Text.trim text
  let isImport := Text.begins "#import" directive
  if isImport && ownImports.any fun p => Text.has p directive then ""
  else
    match classHeader? fs directive dir with
    | some header => "#include \"" ++ header.stem ++ "_ozh.h\"\n"
    | none =>
      (if isImport then Text.replaceFirst "#import" "#include" directive else text) ++ "\n"

end ObjcLowering.Patched
