import ObjcLowering.Proofs.Texts

/-! Generated variables in texts. -/

namespace ObjcLowering

open List Text

/-- What a generated variable is for: the receiver of a message or the value of an assignment, the
iterator of a loop, the elements of an array literal, or the keys and values of a dictionary literal. -/
inductive TempKind
  | receiver
  | iterator
  | array
  | dictionary
  deriving DecidableEq, Inhabited, Repr

namespace TempKind

def all : List TempKind := [receiver, iterator, array, dictionary]

theorem mem_all (kind : TempKind) : kind ∈ all := by cases kind <;> decide

def stem : TempKind → String
  | receiver => "_oz_recv"
  | iterator => "_oz_iter"
  | array => "_oz_arr_"
  | dictionary => "_oz_dict_"

def suffix : TempKind → String
  | receiver => ""
  | iterator => ""
  | array => "_buf"
  | dictionary => "_kv"

def nameOf (kind : TempKind) (k : Nat) : String := kind.stem ++ toString k ++ kind.suffix

end TempKind

def isNameOf (w : String) (kind : TempKind) : Bool :=
  match after? kind.stem w with
  | some rest =>
    let digits := (dropEnd kind.suffix.length rest).toList
    ends kind.suffix rest && !digits.isEmpty && digits.all Char.isDigit
  | none => false

def isTemp (w : String) : Bool := TempKind.all.any (isNameOf w)

def tempsIn (text : String) : List String := (Text.words text).filter isTemp

theorem isTemp_iff : isTemp w = true ↔ ∃ kind, isNameOf w kind = true := by
  simp only [isTemp, any_eq_true]
  exact ⟨fun ⟨kind, _, h⟩ => ⟨kind, h⟩, fun ⟨kind, h⟩ => ⟨kind, kind.mem_all, h⟩⟩

def mark : List Char := ['_', 'o', 'z', '_']

theorem mark_prefix_of_isTemp (h : isTemp w = true) : mark <+: w.toList := by
  obtain ⟨kind, h⟩ := isTemp_iff.mp h
  unfold isNameOf at h
  split at h
  · next rest hrest =>
    rw [toList_of_after? hrest]
    refine IsPrefix.trans ?_ (prefix_append _ _)
    cases kind <;> decide
  · cases h

theorem letter_of_isTemp (h : isTemp w = true) : w.toList[4]? ∈ [some 'r', some 'i', some 'a', some 'd'] := by
  obtain ⟨kind, h⟩ := isTemp_iff.mp h
  unfold isNameOf at h
  split at h
  · next rest hrest =>
    rw [toList_of_after? hrest]
    cases kind <;> simp [TempKind.stem]
  · cases h

theorem isTemp_nameOf (kind : TempKind) (k : Nat) : isTemp (kind.nameOf k) = true := by
  refine isTemp_iff.mpr ⟨kind, ?_⟩
  have hrest : after? kind.stem (kind.nameOf k) = some (toString k ++ kind.suffix) := by
    rw [TempKind.nameOf, String.append_assoc, after?_append]
  have hdrop : (dropEnd kind.suffix.length (toString k ++ kind.suffix)).toList =
      (toString k).toList := by
    simp [dropEnd, ← String.length_toList]
  have hends : ends kind.suffix (toString k ++ kind.suffix) = true := by
    simp [ends]
  simp only [isNameOf, hrest, hends, hdrop, Bool.true_and, Bool.and_eq_true, Bool.not_eq_true',
    isEmpty_eq_false_iff, all_eq_true]
  exact ⟨toString_ne_empty k, fun c hc => isDigit_of_mem_toString hc⟩

theorem isWord_of_mem_nameOf {kind : TempKind} (h : c ∈ (kind.nameOf k).toList) : isWord c = true := by
  have hstem : ∀ c ∈ kind.stem.toList, isWord c = true := by
    cases kind <;> exact all_iff_forall_prop.mp (by decide +kernel)
  have hsuffix : ∀ c ∈ kind.suffix.toList, isWord c = true := by
    cases kind <;> exact all_iff_forall_prop.mp (by decide +kernel)
  simp only [TempKind.nameOf, String.toList_append, mem_append] at h
  obtain (h | h) | h := h
  · exact hstem c h
  · exact isWord_of_isDigit (isDigit_of_mem_toString h)
  · exact hsuffix c h

theorem nameOf_injective {kind kind' : TempKind} (h : kind.nameOf k = kind'.nameOf l) : k = l := by
  have hkind : kind = kind' := by
    have hfirst : ((kind.nameOf k).toList.drop 4).head? = ((kind'.nameOf l).toList.drop 4).head? := by
      rw [h]
    simp only [TempKind.nameOf, String.toList_append, append_assoc] at hfirst
    revert hfirst
    cases kind <;> cases kind' <;> simp [TempKind.stem]
  subst hkind
  apply toString_injective
  have hlist := congrArg String.toList h
  simp only [TempKind.nameOf, String.toList_append, append_left_inj, append_right_inj] at hlist
  exact String.toList_inj.mp hlist

theorem isTemp_empty : isTemp "" = false := by decide

theorem filter_isTemp_wordsFrom_nil : (wordsFrom [] []).filter isTemp = [] := by
  simp [wordsFrom, isTemp_empty]

@[simp] theorem tempsIn_empty : tempsIn "" = [] := by decide

theorem tempsIn_append_of_opens (h : Chars.opens b.toList = true) :
    tempsIn (a ++ b) = tempsIn a ++ tempsIn b := by
  obtain ⟨c, t, hb, hc⟩ := Chars.exists_of_opens h
  have hfront : wordsFrom [] (c :: t) = wordsFrom [] [] ++ wordsFrom [] t :=
    wordsFrom_append hc [] [] t
  rw [tempsIn, tempsIn, tempsIn, words, words, words, String.toList_append, hb,
    wordsFrom_append hc, hfront, filter_append, filter_append,
    filter_isTemp_wordsFrom_nil, nil_append]

theorem tempsIn_append_of_closes (h : Chars.closes a.toList = true) :
    tempsIn (a ++ b) = tempsIn a ++ tempsIn b := by
  obtain ⟨s, c, ha, hc⟩ := Chars.exists_of_closes h
  have hback : wordsFrom [] (s ++ [c]) = wordsFrom [] s ++ wordsFrom [] [] :=
    wordsFrom_append hc [] s []
  rw [tempsIn, tempsIn, tempsIn, words, words, words, String.toList_append, ha,
    append_assoc, singleton_append, wordsFrom_append hc, hback, filter_append,
    filter_append, filter_isTemp_wordsFrom_nil, append_nil]

theorem tempsIn_eq_nil_of_word (hword : ∀ c ∈ w.toList, isWord c = true)
    (h : isTemp w = false) : tempsIn w = [] := by
  simp [tempsIn, words, wordsFrom_eq_singleton hword, h]

@[simp] theorem tempsIn_nameOf (kind : TempKind) (k : Nat) :
    tempsIn (kind.nameOf k) = [kind.nameOf k] := by
  rw [tempsIn, words, wordsFrom_eq_singleton fun c hc => isWord_of_mem_nameOf hc]
  simp [isTemp_nameOf]

@[simp] theorem tempsIn_number (k : Nat) : tempsIn k.repr = [] := by
  have hdigits : ∀ c ∈ (toString k).toList, c.isDigit = true := fun c hc => isDigit_of_mem_toString hc
  apply tempsIn_eq_nil_of_word
  · exact fun c hc => isWord_of_isDigit (hdigits c hc)
  · rw [Bool.eq_false_iff]
    intro htemp
    have hmark : '_' ∈ (toString k).toList := (mark_prefix_of_isTemp htemp).subset (by decide)
    exact absurd (hdigits '_' hmark) (by decide)

theorem getLast_of_isTemp (h : isTemp w = true) :
    ∃ c ∈ w.toList.getLast?, c.isDigit = true ∨ c = 'f' ∨ c = 'v' := by
  obtain ⟨kind, h⟩ := isTemp_iff.mp h
  unfold isNameOf at h
  split at h
  · next rest hrest =>
    simp only [Bool.and_eq_true, Bool.not_eq_true', isEmpty_eq_false_iff, all_eq_true] at h
    obtain ⟨⟨hends, hne⟩, hdigits⟩ := h
    obtain ⟨digits, hrest'⟩ := isSuffixOf_iff_suffix.mp hends
    have hdrop : (dropEnd kind.suffix.length rest).toList = digits := by
      simp [dropEnd, ← hrest', ← String.length_toList]
    rw [hdrop] at hne hdigits
    rw [toList_of_after? hrest, ← hrest']
    obtain ⟨c, hc⟩ := getLast?_isSome.mpr hne |> Option.isSome_iff_exists.mp
    cases kind with
    | receiver | iterator =>
      exact ⟨c, by simp [TempKind.suffix, getLast?_append, hc], .inl (hdigits c (mem_of_getLast? hc))⟩
    | array => exact ⟨'f', by simp [TempKind.suffix, getLast?_append], .inr (.inl rfl)⟩
    | dictionary => exact ⟨'v', by simp [TempKind.suffix, getLast?_append], .inr (.inr rfl)⟩
  · cases h

theorem tempsIn_append_count (hverb : verb = "_retain" ∨ verb = "_release")
    (h : tempsIn a = []) : tempsIn (a ++ verb) = [] := by
  have hword : ∀ c ∈ verb.toList, isWord c = true := by
    rcases hverb with rfl | rfl <;> exact all_iff_forall_prop.mp (by decide +kernel)
  have hlast : ∀ w : String, isTemp (w ++ verb) = false := by
    intro w
    rw [Bool.eq_false_iff]
    intro htemp
    obtain ⟨c, hc, hc'⟩ := getLast_of_isTemp htemp
    rcases hverb with rfl | rfl <;> simp [String.toList_append] at hc <;> subst hc <;> simp at hc'
  obtain ⟨front, last, hfront, happend⟩ := exists_wordsFrom_append [] a.toList hword
  rw [tempsIn, words, hfront, filter_append, append_eq_nil_iff] at h
  rw [tempsIn, words, String.toList_append, happend, filter_append, h.1]
  simp [hlast]

/-- Whether a text has no mark of generated names in it and begins or ends, as far as asked for, with a
break. -/
def isFixed (front back : Bool) (s : List Char) : Bool :=
  (!front || Chars.opens s) && (!back || Chars.closes s) && !Chars.has mark s

variable {m : String}

theorem isFixed_literal (h : m = .ofList l) (hl : isFixed front back l = true) :
    isFixed front back m.toList = true := by
  rw [h, String.toList_ofList, hl]

theorem isFixed_of_breaks (h : isFixed front back l = true) : isFixed false false l = true := by
  simp only [isFixed, Bool.and_eq_true] at h
  simp [isFixed, h.2]

@[simp] theorem tempsIn_fixed (h : isFixed false false m.toList = true) : tempsIn m = [] := by
  simp only [isFixed, Bool.and_eq_true, Bool.not_eq_true'] at h
  refine filter_eq_nil_iff.mpr fun w hw htemp => ?_
  have hinfix : mark <:+: m.toList :=
    (mark_prefix_of_isTemp htemp).isInfix.trans (infix_of_mem_wordsFrom hw)
  rw [Chars.has_of_infix hinfix] at h
  exact absurd h.2 (by decide)

@[simp] theorem tempsIn_fixed_append (h : isFixed false true m.toList = true) :
    tempsIn (m ++ b) = tempsIn b := by
  have hcloses : Chars.closes m.toList = true := by
    simp only [isFixed, Bool.and_eq_true, Bool.not_true, Bool.false_or] at h
    exact h.1.2
  rw [tempsIn_append_of_closes hcloses, tempsIn_fixed (isFixed_of_breaks h), nil_append]

@[simp] theorem tempsIn_append_fixed (h : isFixed true false m.toList = true) :
    tempsIn (a ++ m) = tempsIn a := by
  have hopens : Chars.opens m.toList = true := by
    simp only [isFixed, Bool.and_eq_true, Bool.not_true, Bool.false_or] at h
    exact h.1.1
  rw [tempsIn_append_of_opens hopens, tempsIn_fixed (isFixed_of_breaks h), append_nil]

theorem closes_append_of_isFixed (h : isFixed false true m.toList = true) :
    Chars.closes (a ++ m).toList = true := by
  simp only [isFixed, Bool.and_eq_true, Bool.not_true, Bool.false_or] at h
  rw [String.toList_append]
  exact Chars.closes_append h.1.2

@[simp] theorem tempsIn_append_append (h : isFixed false true m.toList = true) :
    tempsIn (a ++ m ++ b) = tempsIn (a ++ m) ++ tempsIn b :=
  tempsIn_append_of_closes (closes_append_of_isFixed h)

end ObjcLowering
