namespace ObjcLowering

inductive Fault
  /-- The superclass chain of `start` comes back to `again`. -/
  | inheritanceCycle (start again : String)
  | malformedInteger
  | unknownName
  | outOfRange
  | wrongValue
  /-- A value is asked for what only a text, or only a record, has. -/
  | unfit
  /-- A bound of a piece of source text lies inside a character. -/
  | cutCharacter
  | missingFile
  | notDirectory
  | isDirectory
  | fileExists
  | badPath
  | nameTooLong
  | malformedJson
  | badOption
  | undefinedPlaceholder
  | malformedTemplate
  /-- A macro argument whose lowering would need itself. -/
  | endlessExpansion
  deriving DecidableEq, Inhabited, Repr

def Fault.message : Fault → String
  | .inheritanceCycle start again => s!"inheritance cycle detected: {start} -> ... -> {again}"
  | .malformedInteger => "malformed integer"
  | .unknownName => "unknown name"
  | .outOfRange => "index out of range"
  | .wrongValue => "value of the wrong kind"
  | .unfit => "value without the operation"
  | .cutCharacter => "a character is cut"
  | .missingFile => "no such file"
  | .notDirectory => "not a directory"
  | .isDirectory => "is a directory"
  | .fileExists => "a file is in the way"
  | .badPath => "no path"
  | .nameTooLong => "name too long"
  | .malformedJson => "malformed JSON"
  | .badOption => "bad option value"
  | .undefinedPlaceholder => "undefined placeholder"
  | .malformedTemplate => "malformed template"
  | .endlessExpansion => "endless macro expansion"

end ObjcLowering
