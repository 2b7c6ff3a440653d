import Mathlib.Data.Bool.AllAny
import Mathlib.Data.List.Infix
import Mathlib.Data.List.TakeWhile
import ObjcLowering.Text.Basic

/-!
Texts: what stands at their front, the digits of numbers, and their words.
-/

namespace ObjcLowering

open List

theorem toNat_of_isDigit {c : Char} (h : c.isDigit = true) : 48 ≤ c.toNat ∧ c.toNat ≤ 57 := by
  simp only [Char.isDigit, Bool.and_eq_true, decide_eq_true_eq] at h
  exact ⟨UInt32.le_iff_toNat_le.mp h.1, UInt32.le_iff_toNat_le.mp h.2⟩

theorem isDigit_of_mem_toString {k : Nat} (h : c ∈ (toString k).toList) : c.isDigit = true := by
  rw [show toString k = k.repr from rfl, Nat.repr_eq_ofList_toDigits, String.toList_ofList] at h
  exact Nat.isDigit_of_mem_toDigits (by decide) (by decide) h

theorem toString_ne_empty (k : Nat) : (toString k).toList ≠ [] := by
  rw [show toString k = k.repr from rfl, Nat.repr_eq_ofList_toDigits, String.toList_ofList]
  exact Nat.toDigits_ne_nil

theorem toString_injective {a b : Nat} (h : toString a = toString b) : a = b := by
  have hdigits : Nat.toDigits 10 a = Nat.toDigits 10 b := by
    have hlist : a.repr.toList = b.repr.toList := congrArg String.toList h
    simpa [Nat.repr_eq_ofList_toDigits] using hlist
  rw [← Nat.ofDigitChars_toDigits (b := 10) (n := a) (by decide) (by decide), hdigits,
    Nat.ofDigitChars_toDigits (by decide) (by decide)]

namespace Text

theorem Chars.eq_append_of_after? (h : Chars.after? p s = some r) : s = p ++ r := by
  induction p generalizing s with
  | nil =>
    cases h
    rfl
  | cons a p ih =>
    cases s with
    | nil => cases h
    | cons b s =>
      simp only [Chars.after?] at h
      split at h
      · next hab => rw [hab, ih h, cons_append]
      · cases h

theorem Chars.after?_append (p s : List Char) : Chars.after? p (p ++ s) = some s := by
  induction p with
  | nil => rfl
  | cons a p ih => simpa [Chars.after?] using ih

theorem toList_of_after? (h : after? p w = some rest) : w.toList = p.toList ++ rest.toList := by
  obtain ⟨r, hr, rfl⟩ := Option.map_eq_some_iff.mp h
  simpa using Chars.eq_append_of_after? hr

theorem after?_append (p s : String) : after? p (p ++ s) = some s := by
  simp [after?, Chars.after?_append]

theorem Chars.has_of_infix (h : p <:+: s) : Chars.has p s = true := by
  unfold Chars.has
  induction s with
  | nil =>
    rw [infix_nil.mp h]
    rfl
  | cons c s ih =>
    rw [Chars.cut?]
    cases hfront : Chars.after? p (c :: s) with
    | some rest => rfl
    | none =>
      rw [Option.isSome_map]
      apply ih
      rcases infix_cons_iff.mp h with hprefix | hinfix
      · obtain ⟨r, hr⟩ := hprefix
        rw [← hr, Chars.after?_append] at hfront
        cases hfront
      · exact hinfix

theorem length_of_after? (h : Chars.after? p s = some rest) : p.length + rest.length = s.length := by
  fun_induction Chars.after? p s with
  | case1 s =>
    cases h
    simp
  | case2 => cases h
  | case3 a p s ih =>
    have := ih h
    simp only [length_cons]
    omega
  | case4 => cases h

theorem length_of_cut? (h : Chars.cut? p s = some (front, rest)) :
    front.length + p.length + rest.length = s.length := by
  induction s generalizing front with
  | nil =>
    rw [Chars.cut?] at h
    split at h
    · next hp =>
      cases h
      simp [isEmpty_iff.mp hp]
    · cases h
  | cons c s ih =>
    rw [Chars.cut?] at h
    cases hafter : Chars.after? p (c :: s) with
    | some r =>
      rw [hafter] at h
      cases h
      simpa using length_of_after? hafter
    | none =>
      rw [hafter] at h
      obtain ⟨⟨a, b⟩, hcut, heq⟩ := Option.map_eq_some_iff.mp h
      cases heq
      have := ih hcut
      simp only [length_cons]
      omega

theorem length_trimLeft_le (s : List Char) : (Chars.trimLeft s).length ≤ s.length :=
  (dropWhile_sublist _).length_le

theorem length_trim_le (s : List Char) : (Chars.trim s).length ≤ s.length := by
  have hright : ∀ s : List Char, (Chars.trimRight s).length ≤ s.length := by
    intro s
    have := (dropWhile_sublist isBlank (l := s.reverse)).length_le
    simpa [Chars.trimRight, Chars.trimRightBy] using this
  exact (hright _).trans (length_trimLeft_le s)

theorem isBlank_of_trim_eq (h : Chars.trim (c :: s) = c :: s) : isBlank c = false := by
  by_contra hc
  have htrim : Chars.trim (c :: s) = Chars.trim s := by
    rw [Chars.trim, Chars.trimLeft, dropWhile_cons_of_pos (by simpa using hc)]
    rfl
  have hle := length_trim_le s
  rw [← htrim, h, length_cons] at hle
  omega

theorem Chars.cut?_of_not_mem (hp : a ∈ p) (hs : a ∉ s) : Chars.cut? p s = none := by
  induction s with
  | nil => cases p with
    | nil => cases hp
    | cons => rfl
  | cons c s ih =>
    have hafter : Chars.after? p (c :: s) = none := by
      by_contra h
      obtain ⟨rest, hrest⟩ := Option.ne_none_iff_exists'.mp h
      exact hs (Chars.eq_append_of_after? hrest ▸ mem_append_left _ hp)
    rw [Chars.cut?, hafter, ih fun h => hs (.tail _ h)]
    rfl

theorem Chars.cut?_append (hs : a ∉ s) (p rest : List Char) :
    Chars.cut? (a :: p) (s ++ a :: (p ++ rest)) = some (s, rest) := by
  induction s with
  | nil => simp [Chars.cut?, Chars.after?, Chars.after?_append]
  | cons c s ih =>
    obtain ⟨hc, hs⟩ := ne_and_not_mem_of_not_mem_cons hs
    have hafter : Chars.after? (a :: p) (c :: (s ++ a :: (p ++ rest))) = none := if_neg hc
    rw [cons_append, Chars.cut?, hafter, ih hs]
    rfl

theorem Chars.replaceFrom_of_not_infix (h : ¬ p <:+: s) : Chars.replaceFrom p r 0 s = s := by
  induction s with
  | nil => rfl
  | cons c s ih =>
    have hprefix : ¬ p.isPrefixOf (c :: s) = true :=
      fun hp => h ( isPrefixOf_iff_prefix.mp hp).isInfix
    have hrest : ¬ p <:+: s := fun hp => h (hp.trans (suffix_cons c s).isInfix)
    rw [Chars.replaceFrom, if_neg hprefix, ih hrest]

theorem Chars.replace_of_not_infix (h : ¬ p <:+: s) : Chars.replace p r s = s := by
  rw [Chars.replace, Chars.replaceFrom_of_not_infix h, ite_self]

theorem Chars.replace_nil (p r : List Char) : Chars.replace p r [] = [] := by
  simp [Chars.replace, Chars.replaceFrom]

theorem Chars.infix_of_infix_append (hp : p ≠ []) (hdisjoint : ∀ c ∈ p, c ∉ t) (h : p <:+: s ++ t) :
    p <:+: s := by
  obtain ⟨front, back, heq⟩ := h
  rcases append_eq_append_iff.mp heq with ⟨rest, hs, -⟩ | ⟨rest, hfront, ht⟩
  · exact ⟨front, rest, hs.symm⟩
  cases eq_nil_or_concat rest with
  | inl hrest =>
    rw [hrest, append_nil] at hfront
    exact ⟨front, [], by rw [append_nil, hfront]⟩
  | inr hrest =>
    obtain ⟨rest, c, rfl⟩ := hrest
    have hlast := congrArg getLast? hfront
    rw [getLast?_append_of_ne_nil _ hp, concat_eq_append, ← append_assoc,
      getLast?_concat] at hlast
    refine absurd ?_ (hdisjoint c (mem_of_getLast? hlast))
    simp [ht]

theorem Chars.trimRight_concat (hc : isBlank c = false) :
    Chars.trimRight (s ++ [c]) = s ++ [c] := by
  simp [Chars.trimRight, Chars.trimRightBy, hc]

theorem Chars.trimRightBy_prefix (p : Char → Bool) (s : List Char) : Chars.trimRightBy p s <+: s := by
  rw [← reverse_suffix, Chars.trimRightBy, reverse_reverse]
  exact dropWhile_suffix _

theorem Chars.trimRight_concat_blank (hc : isBlank c = true) :
    Chars.trimRight (s ++ [c]) = Chars.trimRight s := by
  simp [Chars.trimRight, Chars.trimRightBy, hc]

theorem Chars.trim_concat (hc : isBlank c = true) : Chars.trim (s ++ [c]) = Chars.trim s := by
  unfold Chars.trim
  rw [← Chars.trimRight_concat_blank hc (s := Chars.trimLeft s)]
  unfold Chars.trimLeft
  rw [dropWhile_append]
  split
  · next h => simp [isEmpty_iff.mp h, hc, Chars.trimRight, Chars.trimRightBy]
  · rfl

theorem Chars.trim_append_left (h : ∀ c ∈ t, isBlank c = true) : Chars.trim (t ++ s) = Chars.trim s := by
  unfold Chars.trim Chars.trimLeft
  rw [dropWhile_append_of_pos h]

theorem Chars.trim_append_right (h : ∀ c ∈ t, isBlank c = true) : Chars.trim (s ++ t) = Chars.trim s := by
  induction t using reverseRecOn with
  | nil => rw [append_nil]
  | append_singleton t c ih =>
    rw [← append_assoc, Chars.trim_concat (h c (by simp)), ih fun d hd => h d (by simp [hd])]

theorem Chars.trimBy_of_forall (h : ∀ c ∈ s, p c = false) : Chars.trimRightBy p (s.dropWhile p) = s := by
  have hleft : s.dropWhile p = s := dropWhile_eq_self_iff.mpr fun hs => by simp [h]
  have hright : s.reverse.dropWhile p = s.reverse := dropWhile_eq_self_iff.mpr fun hs => by simp [h]
  rw [hleft, Chars.trimRightBy, hright, reverse_reverse]

theorem Chars.trim_of_forall (h : ∀ c ∈ s, isBlank c = false) : Chars.trim s = s :=
  Chars.trimBy_of_forall h

theorem Chars.trimLeft_cons (hc : isBlank c = false) : Chars.trimLeft (c :: s) = c :: s := by
  simp [Chars.trimLeft, hc]

theorem Chars.trimLeft_concat (hc : isBlank c = false) :
    Chars.trimLeft (s ++ [c]) = Chars.trimLeft s ++ [c] := by
  unfold Chars.trimLeft
  rw [dropWhile_append]
  split
  · next h => rw [isEmpty_iff.mp h, dropWhile_cons_of_neg (by simp [hc]), nil_append]
  · rfl

theorem Chars.isPrefixOf_append_cons {p : List Char} (hc : c ∉ p) :
    p.isPrefixOf (s ++ c :: t) = p.isPrefixOf s := by
  induction s generalizing p with
  | nil =>
    cases p with
    | nil => rfl
    | cons a p =>
      have ha : a ≠ c := fun h => hc (h ▸ .head _)
      simp [isPrefixOf, ha]
  | cons d s ih =>
    cases p with
    | nil => rfl
    | cons a p => simp [isPrefixOf, ih fun h => hc (.tail _ h)]

theorem Chars.replaceFrom_append_cons {p r : List Char} (hp : p ≠ []) (hc : c ∉ p) (hskip : skip ≤ s.length) :
    Chars.replaceFrom p r skip (s ++ c :: t) =
      Chars.replaceFrom p r skip s ++ c :: Chars.replaceFrom p r 0 t := by
  induction s generalizing skip with
  | nil =>
    cases Nat.le_zero.mp hskip
    have hprefix := Chars.isPrefixOf_append_cons (s := []) (t := t) hc
    cases p with
    | nil => exact absurd rfl hp
    | cons a p => simp_all [Chars.replaceFrom]
  | cons d s ih =>
    cases skip with
    | succ k => exact ih (Nat.le_of_succ_le_succ hskip)
    | zero =>
      have hprefix := Chars.isPrefixOf_append_cons (s := d :: s) (t := t) hc
      rw [cons_append] at hprefix
      simp only [cons_append, Chars.replaceFrom, hprefix]
      split
      · next h =>
        have hle := ( isPrefixOf_iff_prefix.mp h).length_le
        rw [ih (by simp at hle; omega), append_assoc]
      · rw [ih (Nat.zero_le _), cons_append]

def wordsFrom (word : List Char) : List Char → List String
  | [] => [.ofList word]
  | c :: s => if isWord c then wordsFrom (word ++ [c]) s else .ofList word :: wordsFrom [] s

def words (s : String) : List String := wordsFrom [] s.toList

theorem wordsFrom_append (hc : isWord c = false) (word s t : List Char) :
    wordsFrom word (s ++ c :: t) = wordsFrom word s ++ wordsFrom [] t := by
  induction s generalizing word with
  | nil => simp [wordsFrom, hc]
  | cons d s ih =>
    simp only [cons_append, wordsFrom, ih]
    split <;> simp

theorem infix_of_mem_wordsFrom (h : w ∈ wordsFrom word s) : w.toList <:+: word ++ s := by
  induction s generalizing word with
  | nil =>
    rw [mem_singleton.mp h]
    simp
  | cons c s ih =>
    simp only [wordsFrom] at h
    split at h
    · simpa using ih h
    · cases h with
      | head => exact ⟨[], c :: s, by simp⟩
      | tail _ h => exact (ih h).trans ⟨word ++ [c], [], by simp⟩

theorem wordsFrom_eq_singleton (h : ∀ c ∈ s, isWord c = true) : wordsFrom word s = [.ofList (word ++ s)] := by
  induction s generalizing word with
  | nil => simp [wordsFrom]
  | cons c s ih =>
    obtain ⟨hc, hs⟩ := forall_mem_cons.mp h
    simp [wordsFrom, hc, ih hs]

theorem exists_wordsFrom_append (word s : List Char) (h : ∀ c ∈ t, isWord c = true) :
    ∃ front last, wordsFrom word s = front ++ [last] ∧
      wordsFrom word (s ++ t) = front ++ [last ++ .ofList t] := by
  induction s generalizing word with
  | nil => exact ⟨[], .ofList word, rfl, by simp [wordsFrom_eq_singleton h, String.ofList_append]⟩
  | cons c s ih =>
    simp only [cons_append, wordsFrom]
    split
    · exact ih _
    · obtain ⟨front, last, hs, hst⟩ := ih []
      exact ⟨.ofList word :: front, last, by simp [hs], by simp [hst]⟩

def breaks : List Char :=
  [' ', '(', ')', '[', ']', '\x7b', '\x7d', '<', '>', '*', '&', '.', ',', ';', ':', '=', '+', '-', '!',
   '~', '/', '?', '^', '"', '\'', '\n', '\t']

def isBreak (c : Char) : Bool := breaks.contains c

theorem isWord_of_isBreak (h : isBreak c = true) : isWord c = false := by
  have hall : ∀ c ∈ breaks, isWord c = false := all_iff_forall_prop.mp (by decide +kernel)
  exact hall c (contains_iff_mem.mp h)

theorem isWord_of_isBlank (h : isBlank c = true) : isWord c = false := by
  have hall : ∀ r ∈ blankRanges, ∀ n ∈ range' r.1 (r.2 + 1 - r.1), isWord (Char.ofNat n) = false := by
    decide +kernel
  obtain ⟨r, hr, hbounds⟩ := any_eq_true.mp h
  have hbounds : r.1 ≤ c.toNat ∧ c.toNat ≤ r.2 := by simpa using hbounds
  have hc := hall r hr c.toNat (mem_range'_1.mpr (by omega))
  rwa [Char.ofNat_toNat] at hc

def Chars.opens (s : List Char) : Bool := (s.head?.map isBreak).getD false

def Chars.closes (s : List Char) : Bool := (s.getLast?.map isBreak).getD false

theorem Chars.exists_of_opens (h : Chars.opens s = true) : ∃ c t, s = c :: t ∧ isWord c = false := by
  unfold Chars.opens at h
  cases s with
  | nil => simp at h
  | cons c t => exact ⟨c, t, rfl, isWord_of_isBreak (by simpa using h)⟩

theorem Chars.exists_of_closes (h : Chars.closes s = true) :
    ∃ t c, s = t ++ [c] ∧ isWord c = false := by
  unfold Chars.closes at h
  cases hs : s.getLast? with
  | none => simp [hs] at h
  | some c =>
    obtain ⟨t, ht⟩ := getLast?_eq_some_iff.mp hs
    exact ⟨t, c, ht, isWord_of_isBreak (by simpa [hs] using h)⟩

theorem Chars.closes_append (h : Chars.closes t = true) : Chars.closes (s ++ t) = true := by
  unfold Chars.closes at h ⊢
  cases ht : t.getLast? with
  | none => simp [ht] at h
  | some c => simpa [getLast?_append, ht] using h

theorem Chars.forall_mem {s : List Char} {P : Char → Prop} [DecidablePred P] (h : s.all (P ·) = true) : ∀ c ∈ s, P c :=
  List.all_iff_forall_prop.mp h

theorem Chars.notMem_of_mem_splitBy (h : part ∈ Chars.splitBy sep s) : sep ∉ part := by
  induction s generalizing part with
  | nil =>
    cases mem_singleton.mp h
    simp
  | cons c s ih =>
    rw [Chars.splitBy] at h
    by_cases hc : c = sep
    · rw [if_pos hc] at h
      rcases mem_cons.mp h with rfl | h
      · simp
      · exact ih h
    · rw [if_neg hc] at h
      cases hrest : Chars.splitBy sep s with
      | nil =>
        rw [hrest] at h
        cases mem_singleton.mp h
        simpa using Ne.symm hc
      | cons first rest =>
        rw [hrest] at h ih
        rcases mem_cons.mp h with rfl | h
        · simpa [Ne.symm hc] using ih (.head _)
        · exact ih (.tail _ h)

theorem Chars.splitBy_append (hs : sep ∉ s) (t : List Char) :
    Chars.splitBy sep s = [s] ∧ Chars.splitBy sep (s ++ sep :: t) = s :: Chars.splitBy sep t := by
  induction s with
  | nil => simp [Chars.splitBy]
  | cons c s ih =>
    obtain ⟨hc, hs⟩ := ne_and_not_mem_of_not_mem_cons hs
    simp [Chars.splitBy, ih hs, hc.symm]

theorem of_isDigit {P : Char → Prop} (hall : ∀ n : Fin 58, 48 ≤ n.val → P (Char.ofNat n.val))
    (h : c.isDigit = true) : P c := by
  have hbounds := toNat_of_isDigit h
  have hc := hall ⟨c.toNat, by omega⟩ hbounds.1
  rwa [Char.ofNat_toNat] at hc

theorem isWord_of_isDigit (h : c.isDigit = true) : isWord c = true :=
  of_isDigit (P := fun c => isWord c = true) (by decide +kernel) h

end Text

end ObjcLowering
