import ObjcLowering.Proofs.Lowering.Runs

/-! The lengths of string constants. -/

namespace ObjcLowering.Target

inductive Element
  | plain (c : Char)
  /-- A backslash and a letter or mark. -/
  | simple (c : Char)
  | octal (digits : List Char)
  | hex (digits : List Char)
  /-- A character by its number, in as many digits as the letter asks for. -/
  | universal (letter : Char) (digits : List Char)
  deriving DecidableEq, Inhabited, Repr

def digitValue (c : Char) : Nat :=
  if c.isDigit then c.toNat - '0'.toNat else c.toLower.toNat - 'a'.toNat + 10

def valueOf (base : Nat) (digits : List Char) : Nat :=
  digits.foldl (fun n c => n * base + digitValue c) 0

def simpleEscapes : List (Char × UInt8) :=
  [('\'', 0x27), ('"', 0x22), ('?', 0x3F), ('\\', 0x5C), ('a', 0x07), ('b', 0x08), ('f', 0x0C),
   ('n', 0x0A), ('r', 0x0D), ('t', 0x09), ('v', 0x0B)]

namespace Element

def spelling : Element → List Char
  | plain c => [c]
  | simple c => ['\\', c]
  | octal digits => '\\' :: digits
  | hex digits => '\\' :: 'x' :: digits
  | universal letter digits => '\\' :: letter :: digits

def bytes : Element → List UInt8
  | plain c => String.utf8EncodeChar c
  | simple c => [(simpleEscapes.lookup c).getD 0]
  | octal digits => [.ofNat (valueOf 8 digits)]
  | hex digits => [.ofNat (valueOf 16 digits)]
  | universal _ digits => String.utf8EncodeChar (.ofNat (valueOf 16 digits))

def surplus (e : Element) : Nat := e.spelling.length - e.bytes.length

def deficit (e : Element) : Nat := e.bytes.length - e.spelling.length

def isAscii : Element → Bool
  | plain c => c.toNat < 128
  | _ => false

end Element

def isOctalDigit (c : Char) : Bool := '0' ≤ c && c ≤ '7'

def isHexDigit (c : Char) : Bool := c.isDigit || ('a' ≤ c && c ≤ 'f') || ('A' ≤ c && c ≤ 'F')

structure Reading where
  done : List Element := []
  begun : Option (List Char) := none
  deriving DecidableEq, Inhabited, Repr

namespace Reading

def complete? : List Char → Option Element
  | [] => none
  | c :: digits =>
    if digits.isEmpty && (simpleEscapes.lookup c).isSome then some (.simple c)
    else if isOctalDigit c then some (.octal (c :: digits))
    else if c = 'x' && !digits.isEmpty then some (.hex digits)
    else if (c = 'u' && digits.length == 4) || (c = 'U' && digits.length == 8) then
      some (.universal c digits)
    else none

/-- Whether a character belongs to a begun escape sequence; an escape sequence is as long as it can be. -/
def takes : List Char → Char → Bool
  | [], c => (simpleEscapes.lookup c).isSome || isOctalDigit c || ['x', 'u', 'U'].contains c
  | first :: digits, c =>
    if isOctalDigit first then isOctalDigit c && digits.length < 2
    else if first = 'x' then isHexDigit c
    else if first = 'u' then isHexDigit c && digits.length < 4
    else if first = 'U' then isHexDigit c && digits.length < 8
    else false

def start (done : List Element) (c : Char) : Option Reading :=
  if c = '\\' then some { done, begun := some [] }
  else if c = '"' || c = '\n' then none
  else some { done := done ++ [.plain c] }

def advance (r : Reading) (c : Char) : Option Reading :=
  match r.begun with
  | none => start r.done c
  | some part =>
    if takes part c then some { r with begun := some (part ++ [c]) }
    else (complete? part).bind fun e => start (r.done ++ [e]) c

def finish (r : Reading) : Option (List Element) :=
  match r.begun with
  | none => some r.done
  | some part => (complete? part).map fun e => r.done ++ [e]

end Reading

def elements? (body : List Char) : Option (List Element) :=
  (body.foldlM Reading.advance {}).bind Reading.finish

def spelled (es : List Element) : List Char := es.flatMap Element.spelling

def denoted (es : List Element) : List UInt8 := es.flatMap Element.bytes

example : (elements? "\\x41\\101\\n\\u00e9é".toList).map denoted
    = some [0x41, 0x41, 0x0A, 0xC3, 0xA9, 0xC3, 0xA9] := by decide

variable {r r' : Reading}

namespace Reading

def text (r : Reading) : List Char :=
  spelled r.done ++ (r.begun.map ('\\' :: ·)).getD []

theorem spelling_of_complete? (h : complete? part = some e) : e.spelling = '\\' :: part := by
  cases part with
  | nil => cases h
  | cons c digits =>
    rw [complete?] at h
    split at h
    · next hsimple =>
      cases h
      simp [Element.spelling, List.isEmpty_iff.mp (Bool.and_eq_true_iff.mp hsimple).1]
    · split at h
      · cases h
        rfl
      · split at h
        · next hhex =>
          cases h
          simp only [Bool.and_eq_true, decide_eq_true_eq] at hhex
          rw [Element.spelling, hhex.1]
        · split at h
          · cases h
            rfl
          · cases h

theorem text_of_start {done : List Element} (h : start done c = some r) : r.text = spelled done ++ [c] := by
  unfold start at h
  split at h
  · next hc =>
    cases h
    simp [text, hc]
  · split at h
    · cases h
    · cases h
      simp [text, spelled, Element.spelling]

theorem text_of_advance (h : r.advance c = some r') : r'.text = r.text ++ [c] := by
  unfold advance at h
  cases hbegun : r.begun with
  | none =>
    rw [hbegun] at h
    rw [text_of_start h, text, hbegun]
    simp
  | some part =>
    rw [hbegun] at h
    dsimp only at h
    split at h
    · cases h
      simp [text, hbegun]
    · obtain ⟨e, he, h⟩ := Option.bind_eq_some_iff.mp h
      rw [text_of_start h, text, hbegun]
      simp [spelled, spelling_of_complete? he]

theorem text_of_foldlM (h : body.foldlM advance r = some r') : r'.text = r.text ++ body := by
  induction body generalizing r with
  | nil =>
    cases h
    simp
  | cons c body ih =>
    rw [List.foldlM_cons] at h
    obtain ⟨r₁, hc, h⟩ := Option.bind_eq_some_iff.mp h
    rw [ih h, text_of_advance hc, List.append_assoc, List.singleton_append]

theorem spelled_of_finish (h : r.finish = some es) : spelled es = r.text := by
  unfold finish at h
  cases hbegun : r.begun with
  | none =>
    rw [hbegun] at h
    cases h
    simp [text, hbegun]
  | some part =>
    rw [hbegun] at h
    obtain ⟨e, he, rfl⟩ := Option.map_eq_some_iff.mp h
    simp [text, hbegun, spelled, spelling_of_complete? he]

end Reading

theorem spelled_elements (h : elements? body = some es) : spelled es = body := by
  obtain ⟨r, hr, hfinish⟩ := Option.bind_eq_some_iff.mp h
  rw [Reading.spelled_of_finish hfinish, Reading.text_of_foldlM hr]
  rfl

def total (f : Element → Nat) : List Element → Nat
  | [] => 0
  | e :: es => f e + total f es

theorem total_eq_zero (h : ∀ e ∈ es, f e = 0) : total f es = 0 := by
  induction es with
  | nil => rfl
  | cons e es ih => rw [total, h e (.head _), ih fun e he => h e (.tail _ he)]

theorem length_spelled_add_deficit (es : List Element) :
    (spelled es).length + total Element.deficit es = (denoted es).length + total Element.surplus es := by
  induction es with
  | nil => rfl
  | cons e es ih =>
    have hspelled : (spelled (e :: es)).length = e.spelling.length + (spelled es).length := by simp [spelled]
    have hdenoted : (denoted (e :: es)).length = e.bytes.length + (denoted es).length := by simp [denoted]
    rw [hspelled, hdenoted, total, total, Element.deficit, Element.surplus]
    omega

theorem Element.length_bytes_of_isAscii {e : Element} (h : e.isAscii = true) :
    e.bytes.length = e.spelling.length := by
  cases e with
  | plain c =>
    have hc : c.toNat < 128 := of_decide_eq_true h
    have hsize : c.utf8Size = 1 := by
      rw [Char.utf8Size_eq_one_iff]
      exact UInt32.le_iff_toNat_le.mpr (Nat.le_of_lt_succ hc)
    simp [bytes, spelling, String.length_utf8EncodeChar, hsize]
  | _ => cases h

end ObjcLowering.Target

namespace ObjcLowering.Lowering

open Ast Target

def constantText (name : String) (length : Nat) (literal : String) : String :=
  "static struct OZString " ++ name
    ++ " = \x7b\x7b\x7b.class_id = OZ_CLASS_OZString, .immortal = 1\x7d, 1\x7d, " ++ toString length ++ ", 0, "
    ++ literal ++ "\x7d;"

def quoted (body : String) : String := "\"" ++ body ++ "\""

theorem length_quoted (body : String) : (quoted body).toList.length - 2 = body.toList.length := by
  simp [quoted]

theorem stringConstant_eq (name literal : String) :
    stringConstant name literal = constantText name (literal.toList.length - 2) literal := rfl

theorem yields_internString (hloc : loc.get = .ok place) (hnew : s.literals.find? literal = none) :
    ∃ name s', Yields (internString literal loc) env s name s' ∧
      s'.strings = s.strings ++ [stringConstant name literal] := by
  unfold internString
  simp only [yields_get_bind, hnew, yields_liftM_bind, hloc, Except.ok.injEq, exists_eq_left']
  cases position? place with
  | none => exact ⟨_, _, rfl, rfl⟩
  | some position => exact ⟨_, _, rfl, rfl⟩

theorem yields_lowerString (env : Env) (hn : n.inner.head? = some first)
    (hfirst : first.attrs.isAlien = false) (hvalue : first.attrs.value = some (.text literal))
    (hloc : n.attrs.loc.get = .ok place) (hnew : s.literals.find? literal = none) :
    ∃ name s', Yields (lowerString n) env s ("(struct OZString *)&" ++ name) s' ∧
      s'.strings = s.strings ++ [stringConstant name literal] := by
  have hcheck : n.inner.head?.mapM Node.check = Except.ok (some first) := by
    have hfirst : first.check = .ok first := by rw [Node.check, hfirst]; rfl
    rw [hn]
    exact congrArg (some <$> ·) hfirst
  have hliteral : Yields (valueText "\"\"" ((some first).bind fun c => c.attrs.value)) env s literal s := by
    rw [Option.bind_some, hvalue]
    exact yields_pure.mpr ⟨rfl, rfl⟩
  obtain ⟨name, s', hname, hstrings⟩ := yields_internString hloc hnew
  refine ⟨name, s', ?_, hstrings⟩
  unfold lowerString
  refine yields_liftM_bind.mpr ⟨_, hcheck, yields_bind.mpr ⟨literal, s, hliteral, ?_⟩⟩
  exact yields_bind.mpr ⟨name, s', hname, yields_pure.mpr ⟨rfl, rfl⟩⟩

theorem yields_copyExpr_none (huse : macroUse? n = .ok none) : Yields (copyExpr? expr n) env s none s := by
  unfold copyExpr?
  refine yields_read_bind.mpr ?_
  cases env.source with
  | none => exact yields_pure.mpr ⟨rfl, rfl⟩
  | some source => exact yields_liftM_bind.mpr ⟨none, huse, yields_pure.mpr ⟨rfl, rfl⟩⟩

theorem yields_exprStep_string (hkind : n.kind = "ObjCStringLiteral") (hsound : n.attrs.isAlien = false)
    (huse : macroUse? n = .ok none) (h : Yields (lowerString n) env s text s') :
    Yields (exprStep below n) env s text s' := by
  have hlower : lowerKind below n = lowerString n := by
    simp only [lowerKind, hkind]
  have hcheck : n.check = .ok n := Node.check_eq_ok.mpr ⟨hsound, rfl⟩
  unfold exprStep
  refine yields_liftM_bind.mpr ⟨n, hcheck, ?_⟩
  rw [if_neg (by rw [hkind]; decide)]
  exact yields_bind.mpr ⟨none, s, yields_copyExpr_none huse, hlower ▸ h⟩

/-- The length in the constant for a literal is the number of bytes that the literal denotes if and only
if the characters that escape sequences take beyond their bytes are as many as the bytes that UTF-8 takes
beyond characters; so it is for plain ASCII text. -/
theorem constant_length_iff (hkind : n.kind = "ObjCStringLiteral") (hsound : n.attrs.isAlien = false)
    (huse : macroUse? n = .ok none) (hloc : n.attrs.loc.get = .ok place)
    (hn : n.inner.head? = some first) (hfirst : first.attrs.isAlien = false)
    (hvalue : first.attrs.value = some (.text (quoted body)))
    (hbody : elements? body.toList = some es) (hnew : s.literals.find? (quoted body) = none) :
    ∃ name length s', Yields (lowerExpr n) env s ("(struct OZString *)&" ++ name) s' ∧
      s'.strings = s.strings ++ [constantText name length (quoted body)] ∧
      (length = (denoted es).length ↔ total Element.surplus es = total Element.deficit es) ∧
      ((∀ e ∈ es, e.isAscii) → length = (denoted es).length) := by
  obtain ⟨name, s', hrun, hstrings⟩ := yields_lowerString env hn hfirst hvalue hloc hnew
  have hlength := length_spelled_add_deficit es
  rw [spelled_elements hbody] at hlength
  refine ⟨name, body.toList.length, s', ?_, ?_, ?_, ?_⟩
  · obtain ⟨a, ns⟩ := n
    exact yields_exprStep_string hkind hsound huse hrun
  · rw [hstrings, stringConstant_eq, length_quoted]
  · omega
  · intro hascii
    have hsurplus : total Element.surplus es = 0 := by
      refine total_eq_zero fun e he => ?_
      rw [Element.surplus, Element.length_bytes_of_isAscii (hascii e he), Nat.sub_self]
    have hdeficit : total Element.deficit es = 0 := by
      refine total_eq_zero fun e he => ?_
      rw [Element.deficit, Element.length_bytes_of_isAscii (hascii e he), Nat.sub_self]
    omega

def literalNode (body : String) : Node :=
  Node.bare "ObjCStringLiteral" [.mk { kind := "StringLiteral", value := some (.text (quoted body)) } []]

theorem balanced_literal_length :
    elements? "\\né".toList = some [.simple 'n', .plain 'é'] ∧
      ∃ name length s', Yields (lowerExpr (literalNode "\\né")) default {} ("(struct OZString *)&" ++ name) s' ∧
        s'.strings = [constantText name length (quoted "\\né")] ∧ length = 3 := by
  have hbody : elements? "\\né".toList = some [.simple 'n', .plain 'é'] := by decide
  obtain ⟨name, length, s', hrun, hstrings, hlength, -⟩ :=
    constant_length_iff (n := literalNode "\\né") (s := {}) rfl rfl rfl rfl rfl rfl rfl hbody rfl
  exact ⟨hbody, name, length, s', hrun, hstrings, hlength.mpr (by decide)⟩

theorem line_feed_counted_twice :
    (elements? "\\n".toList).map denoted = some [0x0A] ∧
      (((lowerExpr (literalNode "\\n")).run default).run {}).toOption.map (fun r => r.2.strings)
        = some [constantText "_oz_str_L0_C0" 2 (quoted "\\n")] := by
  decide +kernel

end ObjcLowering.Lowering
