import ObjcLowering.PoolComments
import ObjcLowering.Program.Options
import ObjcLowering.Proofs.Nodes
import ObjcLowering.Proofs.Tables
import ObjcLowering.Proofs.Texts

/-! Pool sizes as they are read back from the texts that state them. -/

namespace ObjcLowering

open Text
open List hiding splitBy

theorem digitValue?_of_isDigit (h : Char.isDigit c = true) : digitValue? c = some (c.toNat - '0'.toNat) :=
  of_isDigit (P := fun c => digitValue? c = some (c.toNat - '0'.toNat)) (by decide +kernel) h

theorem isBlank_of_isDigit (h : Char.isDigit c = true) : isBlank c = false :=
  of_isDigit (P := fun c => isBlank c = false) (by decide +kernel) h

theorem digitsFrom_of_digits (h : ∀ c ∈ s, Char.isDigit c = true) :
    Integer.digitsFrom acc s = some (Nat.ofDigitChars 10 s acc) := by
  induction s generalizing acc with
  | nil => rfl
  | cons c s ih =>
    obtain ⟨hc, hs⟩ := forall_mem_cons.mp h
    have hlow : c ≠ '_' := fun heq => absurd (heq ▸ hc) (by decide)
    have hstep : Integer.digitsFrom acc (c :: s) =
        (digitValue? c).bind fun d => Integer.digitsFrom (acc * 10 + d) s := by
      rw [Integer.digitsFrom]
      exact fun _ _ heq => absurd heq hlow
    rw [hstep, digitValue?_of_isDigit hc, Option.bind_some, ih hs, Nat.ofDigitChars_cons, Nat.mul_comm]

theorem natural?_of_digits (hne : s ≠ []) (h : ∀ c ∈ s, Char.isDigit c = true) :
    Integer.natural? s =
      if s.length ≤ Integer.maxDigits then some (Nat.ofDigitChars 10 s 0) else none := by
  cases s with
  | nil => exact absurd rfl hne
  | cons c s =>
    obtain ⟨hc, hs⟩ := forall_mem_cons.mp h
    have hcount : s.countP (· != '_') = s.length := by
      refine countP_eq_length.mpr fun d hd => ?_
      have hlow : d ≠ '_' := fun heq => absurd (heq ▸ hs d hd) (by decide)
      simpa using hlow
    rw [Integer.natural?, hcount, digitValue?_of_isDigit hc, Option.bind_some, digitsFrom_of_digits hs,
      Nat.ofDigitChars_cons, Nat.mul_zero, Nat.zero_add, length_cons]
    split <;> split <;> first | rfl | omega

/-- The size of a pool as it is written: blanks stand around the name and around the count, which is a
sign and some digits. -/
structure SizeText where
  name : List Char
  isNegative : Bool
  digits : List Char
  beforeName : List Char
  afterName : List Char
  beforeCount : List Char
  afterCount : List Char
  named : name ≠ []
  trimmed : Chars.trim name = name
  plain : ',' ∉ name ∧ '=' ∉ name
  counted : digits ≠ [] ∧ ∀ c ∈ digits, c.isDigit = true
  blank : ∀ c ∈ beforeName ++ (afterName ++ (beforeCount ++ afterCount)), isBlank c = true

namespace SizeText

def numeral (e : SizeText) : List Char := (if e.isNegative then ['-'] else []) ++ e.digits

def count (e : SizeText) : Int :=
  let n : Nat := Nat.ofDigitChars 10 e.digits 0
  if e.isNegative then -n else n

def chars (e : SizeText) : List Char :=
  e.beforeName ++ (e.name ++ e.afterName ++ '=' :: (e.beforeCount ++ e.numeral)) ++ e.afterCount

def text (e : SizeText) : String := .ofList e.chars

def pair (e : SizeText) : String × Int := (.ofList e.name, e.count)

abbrev IsShort (e : SizeText) : Prop := e.digits.length ≤ Integer.maxDigits

theorem isBlank_of_mem_numeral {e : SizeText} (h : c ∈ e.numeral) : isBlank c = false := by
  rcases mem_append.mp h with h | h
  · split at h
    · cases mem_singleton.mp h
      decide
    · cases h
  · exact isBlank_of_isDigit (e.counted.2 c h)

theorem ofChars?_numeral (e : SizeText) : Integer.ofChars? e.numeral =
    if e.IsShort then some e.count else none := by
  have hmargin : ∀ c ∈ e.numeral, Integer.isMargin c = false :=
    fun c hc => by simp [Integer.isMargin, isBlank_of_mem_numeral hc]
  have hnat := natural?_of_digits e.counted.1 e.counted.2
  unfold Integer.ofChars?
  rw [Chars.trimBy_of_forall hmargin, numeral, count]
  cases e.isNegative with
  | true =>
    simp only [if_true, cons_append, nil_append, hnat]
    split <;> rfl
  | false =>
    have hfirst : ∀ c t, e.digits = c :: t → c.isDigit = true :=
      fun c t heq => e.counted.2 c (heq ▸ .head _)
    simp only [Bool.false_eq_true, if_false, nil_append]
    split
    · next heq => exact absurd (hfirst _ _ heq) (by decide)
    · next heq => exact absurd (hfirst _ _ heq) (by decide)
    · rw [hnat]
      split <;> rfl

theorem trim_chars (e : SizeText) : Chars.trim e.chars =
    e.name ++ e.afterName ++ '=' :: (e.beforeCount ++ e.numeral) := by
  have hblank := e.blank
  simp only [forall_mem_append] at hblank
  rw [chars, Chars.trim_append_right hblank.2.2.2, Chars.trim_append_left hblank.1]
  obtain ⟨c, name, hname⟩ := exists_cons_of_ne_nil e.named
  have hc : isBlank c = false := isBlank_of_trim_eq (hname ▸ e.trimmed)
  have hne : e.numeral ≠ [] := by simp [numeral, e.counted.1]
  obtain ⟨front, d, hd⟩ := (eq_nil_or_concat e.numeral).resolve_left hne
  have hlast : isBlank d = false := isBlank_of_mem_numeral (e := e) (by rw [hd]; simp)
  rw [Chars.trim, hname, cons_append, cons_append, Chars.trimLeft_cons hc, hd]
  simpa using Chars.trimRight_concat hlast (s := c :: (name ++ e.afterName ++ '=' :: (e.beforeCount ++ front)))

theorem poolSize?_text (e : SizeText) : Program.poolSize? e.text =
    if e.IsShort then .ok (some e.pair) else .error .malformedInteger := by
  have hblank := e.blank
  simp only [forall_mem_append] at hblank
  have hname : '=' ∉ e.name ++ e.afterName :=
    not_mem_append e.plain.2 fun hmem => absurd (hblank.2.1 _ hmem) (by decide)
  have hcut : cut? "=" (trim e.text) =
      some (.ofList (e.name ++ e.afterName), .ofList (e.beforeCount ++ e.numeral)) := by
    have hcut := Chars.cut?_append hname [] (e.beforeCount ++ e.numeral)
    rw [nil_append] at hcut
    rw [trim, text, String.toList_ofList, trim_chars, cut?, String.toList_ofList, String.toList_ofList, hcut]
    rfl
  have hcount : trim (.ofList (e.beforeCount ++ e.numeral)) = .ofList e.numeral := by
    rw [trim, String.toList_ofList, Chars.trim_append_left hblank.2.2.1,
      Chars.trim_of_forall fun c hc => isBlank_of_mem_numeral hc]
  have htrim : trim (.ofList (e.name ++ e.afterName)) = .ofList e.name := by
    rw [trim, String.toList_ofList, Chars.trim_append_right hblank.2.1, e.trimmed]
  unfold Program.poolSize?
  simp only [hcut, hcount, htrim, integer?, String.toList_ofList, ofChars?_numeral]
  by_cases hshort : e.IsShort
  · rw [if_pos hshort, if_pos hshort]
    rfl
  · rw [if_neg hshort, if_neg hshort]

theorem comma_notMem_chars (e : SizeText) : ',' ∉ e.chars := by
  have hblank : ∀ s : List Char, (∀ c ∈ s, isBlank c = true) → ',' ∉ s :=
    fun s hs hmem => absurd (hs _ hmem) (by decide)
  have hnumeral : ',' ∉ e.numeral := by
    have hdigits : ',' ∉ e.digits := fun hmem => absurd (e.counted.2 _ hmem) (by decide)
    cases hsign : e.isNegative <;> simp [numeral, hsign, hdigits]
  have hall := e.blank
  simp only [forall_mem_append] at hall
  simp [chars, e.plain.1, hnumeral, hblank _ hall.1, hblank _ hall.2.1, hblank _ hall.2.2.1,
    hblank _ hall.2.2.2]

theorem splitBy_join : splitBy ',' (join "," ((e :: es).map text)) = (e :: es).map text := by
  induction es generalizing e with
  | nil => simp [splitBy, join, text, (Chars.splitBy_append e.comma_notMem_chars []).1]
  | cons f es ih =>
    have hjoin : (join "," ((e :: f :: es).map text)).toList =
        e.chars ++ ',' :: (join "," ((f :: es).map text)).toList := by
      simp [join, String.intercalate_cons_cons, text]
    rw [splitBy, hjoin, (Chars.splitBy_append e.comma_notMem_chars _).2]
    exact congrArg (e.text :: ·) ih

theorem mapM_poolSize? (es : List SizeText) : (es.map text).mapM Program.poolSize? =
    if ∀ e ∈ es, e.IsShort then .ok (es.map fun e => some e.pair) else .error .malformedInteger := by
  induction es with
  | nil => rfl
  | cons e es ih =>
    rw [map_cons, mapM_cons, ih, poolSize?_text]
    by_cases he : e.IsShort
    · by_cases hes : ∀ e ∈ es, e.IsShort
      · rw [if_pos he, if_pos hes, if_pos (forall_mem_cons.mpr ⟨he, hes⟩)]
        rfl
      · rw [if_pos he, if_neg hes, if_neg fun h => hes (forall_mem_cons.mp h).2]
        rfl
    · rw [if_neg he, if_neg fun h => he (forall_mem_cons.mp h).1]
      rfl

theorem poolSizes_join (es : List SizeText) : Program.poolSizes (join "," (es.map text)) =
    if ∀ e ∈ es, e.IsShort then .ok (Table.ofList (es.map pair)) else .error .malformedInteger := by
  cases es with
  | nil => rfl
  | cons e es =>
    rw [Program.poolSizes, splitBy_join, mapM_poolSize?]
    split
    · simp [bind, Except.bind, pure, Except.pure, filterMap_map]
    · rfl

end SizeText

theorem exists_of_mem_findAllFrom (h : a ∈ findAllFrom p skip start s) :
    ∃ start s rest, p start s = some (a, rest) := by
  fun_induction findAllFrom p skip start s with
  | case1 => cases h
  | case2 _ _ _ _ ih => exact ih h
  | case3 start c s b rest hp ih =>
    rcases mem_cons.mp h with rfl | h
    exacts [⟨start, c :: s, rest, hp⟩, ih h]
  | case4 _ _ _ _ ih => exact ih h

def IsWordName (name : String) : Prop := name.toList ≠ [] ∧ ∀ c ∈ name.toList, isWord c = true

theorem isWordName_of_mem_findAll (h : name ∈ findAll PoolComments.interfaceHead text) : IsWordName name := by
  obtain ⟨start, s, rest, hp⟩ := exists_of_mem_findAllFrom h
  simp only [PoolComments.interfaceHead, Option.bind_eq_bind, Option.bind_eq_some_iff, Option.pure_def,
    Option.some.injEq, Prod.mk.injEq] at hp
  obtain ⟨s, -, t, -, ⟨word, u⟩, hword, v, -, rfl, -⟩ := hp
  unfold Chars.word? at hword
  dsimp only at hword
  split at hword
  · cases hword
  · next hne =>
    cases hword
    refine ⟨by simpa using hne, fun c hc => ?_⟩
    rw [String.toList_ofList] at hc
    exact mem_takeWhile_imp hc

def SizeText.four (name : String) (h : IsWordName name) : SizeText where
  name := name.toList
  isNegative := false
  digits := ['4']
  beforeName := []
  afterName := []
  beforeCount := []
  afterCount := []
  named := h.1
  trimmed := Chars.trim_of_forall fun c hc => by
    by_contra hblank
    have hword := isWord_of_isBlank (c := c) (by simpa using hblank)
    simp [h.2 c hc] at hword
  plain := ⟨fun hmem => absurd (h.2 _ hmem) (by decide +kernel),
    fun hmem => absurd (h.2 _ hmem) (by decide +kernel)⟩
  counted := ⟨by decide, Chars.forall_mem (by decide)⟩
  blank := by simp

theorem find?_ofList (entries : List (String × Int)) (name : String) :
    (Table.ofList entries).find? name = entries.reverse.lookup name := by
  induction entries using reverseRecOn with
  | nil => rfl
  | append_singleton entries e ih =>
    have hstep : Table.ofList (entries ++ [e]) = (Table.ofList entries).set e.1 e.2 := by
      simp [Table.ofList]
    rw [hstep, Table.find?_set, ih, reverse_append, reverse_singleton, singleton_append,
      lookup_cons]
    by_cases h : name = e.1
    · simp [h]
    · simp [h, beq_false_of_ne h]

theorem poolSizes_fourEach (h : ∀ name ∈ classes, IsWordName name) :
    ∃ sizes, Program.poolSizes (PoolComments.fourEach classes) = .ok sizes ∧
      ∀ name, sizes.find? name = if name ∈ classes then some 4 else none := by
  have hpairs : (classes.pmap SizeText.four h).map SizeText.pair = classes.map fun name => (name, 4) := by
    simp [map_pmap, SizeText.pair, SizeText.count, SizeText.four]
    exact fun _ _ => rfl
  have htexts : (classes.pmap SizeText.four h).map SizeText.text = classes.map (· ++ "=4") := by
    simp [map_pmap, SizeText.text, SizeText.chars, SizeText.numeral, SizeText.four, String.ofList_append]
  have hread := SizeText.poolSizes_join (classes.pmap SizeText.four h)
  have hshort : ∀ e ∈ classes.pmap SizeText.four h, e.IsShort := by
    intro e he
    obtain ⟨name, hname, rfl⟩ := mem_pmap.mp he
    exact (by decide : 1 ≤ Integer.maxDigits)
  rw [htexts, hpairs, if_pos hshort] at hread
  refine ⟨_, hread, fun name => ?_⟩
  have hmem : name ∈ classes ↔ name ∈ classes.reverse := mem_reverse.symm
  rw [find?_ofList, ← map_reverse, if_congr hmem rfl rfl]
  induction classes.reverse with
  | nil => rfl
  | cons a as ih =>
    rw [map_cons, lookup_cons, ih]
    by_cases ha : name = a <;> simp [ha, beq_false_of_ne]

/-- Pool sizes are read back as they are written, the last one of a name, unless a count has too many
digits. The sizes that are made from sources are read back as four blocks for each class. -/
theorem pool_sizes_read_back (es : List SizeText) :
    (Program.poolSizes (join "," (es.map SizeText.text)) =
      if ∀ e ∈ es, e.IsShort then .ok (Table.ofList (es.map SizeText.pair))
      else .error .malformedInteger) ∧
    (∀ name, (Table.ofList (es.map SizeText.pair)).find? name =
      (es.map SizeText.pair).reverse.lookup name) ∧
    (∀ text, ∃ sizes, Program.poolSizes (PoolComments.defaultSizes text) = .ok sizes ∧
      ∀ name, sizes.find? name = if name ∈ findAll PoolComments.interfaceHead text then some 4 else none) ∧
    ∀ texts, ∃ sizes, Program.poolSizes (PoolComments.collectedSizes texts) = .ok sizes ∧
      ∀ name, sizes.find? name =
        if ∃ text ∈ texts, name ∈ findAll PoolComments.interfaceHead text then some 4 else none := by
  refine ⟨SizeText.poolSizes_join es, find?_ofList _, fun text => ?_, fun texts => ?_⟩
  · exact poolSizes_fourEach fun name hname => isWordName_of_mem_findAll hname
  · have hnames : ∀ name ∈ texts.flatMap (findAll PoolComments.interfaceHead), IsWordName name := by
      intro name hname
      obtain ⟨text, -, hname⟩ := mem_flatMap.mp hname
      exact isWordName_of_mem_findAll hname
    obtain ⟨sizes, hsizes, hfind⟩ := poolSizes_fourEach hnames
    exact ⟨sizes, hsizes, fun name => by simp only [hfind, mem_flatMap]⟩

theorem poolSizes_of_zeros (h : Integer.maxDigits ≤ zeros) :
    Program.poolSizes ("A=" ++ String.ofList (replicate zeros '0' ++ ['4'])) = .error .malformedInteger := by
  let e : SizeText := { SizeText.four "A" ⟨by decide, Chars.forall_mem (by decide +kernel)⟩ with
    digits := replicate zeros '0' ++ ['4']
    counted := ⟨by simp, fun c hc => by
      rcases mem_append.mp hc with hc | hc
      · cases (mem_replicate.mp hc).2
        rfl
      · cases mem_singleton.mp hc
        rfl⟩ }
  have htext : e.text = "A=" ++ String.ofList (replicate zeros '0' ++ ['4']) := by
    simp [e, SizeText.text, SizeText.chars, SizeText.numeral, SizeText.four, String.ofList_append,
      String.ofList_cons]
    rfl
  have hlong : ¬ e.IsShort := by
    have hlength : e.digits.length = zeros + 1 := by simp [e]
    omega
  have hread := SizeText.poolSizes_join [e]
  rwa [if_neg fun h => hlong (h e (.head _)), map_singleton, join, String.intercalate_singleton,
    htext] at hread

theorem poolSizes_padded :
    Program.poolSizes ("A=" ++ String.ofList (replicate 4300 '0' ++ ['4'])) = .error .malformedInteger :=
  poolSizes_of_zeros (Nat.le_refl 4300)

end ObjcLowering
