import ObjcLowering.Text.Scan

namespace ObjcLowering.PoolComments

open Text

def afterOpening? (keyword : String) (s : List Char) : Option (List Char) := do
  let s ← Chars.after? "/*".toList s
  Chars.after? keyword.toList (Chars.trimLeft s)

def afterClosing? (s : List Char) : Option (List Char) :=
  Chars.after? "*/".toList (Chars.trimLeft s)

/-- The shortest text on one line, of at least one character, before blanks and the end of the
comment; `acc` is its beginning in reverse. -/
def untilClosing? : (acc : List Char) → List Char → Option (List Char × List Char)
  | _, [] => none
  | acc, c :: s =>
    if c = '\n' then none
    else
      match afterClosing? s with
      | some rest => some ((c :: acc).reverse, rest)
      | none => untilClosing? (c :: acc) s

def content? : (blanks : List Char) → List Char → Option (List Char × List Char)
  | [], s => untilClosing? [] s
  | b :: blanks, s => (untilClosing? [] s).or (content? blanks (b :: s))

def poolComment : Pattern String := fun _ s => do
  let s ← afterOpening? "oz-pool:" s
  let blanks := s.takeWhile isBlank
  let (content, rest) ← content? blanks.reverse (s.dropWhile isBlank)
  return (String.ofList content, rest)

def heapComment : Pattern Unit := fun _ s => do
  let s ← afterOpening? "oz-heap" s
  return ((), ← afterClosing? s)

def interfaceHead : Pattern String := fun _ s => do
  let s ← Chars.after? "@interface".toList s
  let s ← Chars.afterBlanks? s
  let (word, s) ← Chars.word? s
  let s ← Chars.after? ":".toList (Chars.trimLeft s)
  return (String.ofList word, s)

def poolSizes (text : String) : String := ((find? poolComment text).map trim).getD ""

def needsHeap (text : String) : Bool := matches? heapComment text

def fourEach (classes : List String) : String := join "," (classes.map (· ++ "=4"))

def defaultSizes (text : String) : String := fourEach (findAll interfaceHead text)

def collectedSizes (texts : List String) : String := fourEach (texts.flatMap (findAll interfaceHead))

end ObjcLowering.PoolComments
