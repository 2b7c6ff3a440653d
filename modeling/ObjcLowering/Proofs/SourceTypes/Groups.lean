import ObjcLowering.Proofs.Texts
import ObjcLowering.SourceType

/-! Type arguments in the spelling of a type. -/

namespace ObjcLowering

open Text List

namespace TypeChars

/-- A text whose brackets are balanced, with the characters outside of all groups. Each group has characters
of its own. -/
inductive Grouped : List Char → List Char → Prop
  | nil : Grouped [] []
  | char : isAngle c = false → Grouped s own → Grouped (c :: s) (c :: own)
  | group : Grouped inside (c :: cs) → Grouped s own → Grouped ('<' :: inside ++ '>' :: s) own

namespace Grouped

theorem of_plain (h : ∀ c ∈ s, isAngle c = false) : Grouped s s := by
  induction s with
  | nil => exact .nil
  | cons c s ih =>
    obtain ⟨hc, hs⟩ := forall_mem_cons.mp h
    exact .char hc (ih hs)

theorem append (h : Grouped s own) (h' : Grouped s' own') : Grouped (s ++ s') (own ++ own') := by
  induction h with
  | nil => exact h'
  | char hc _ ih => exact .char hc ih
  | group hinner _ _ ih => simpa using .group hinner ih

theorem plain (h : Grouped s own) : ∀ c ∈ own, isAngle c = false := by
  induction h with
  | nil => exact forall_mem_nil _
  | char hc _ ih => exact forall_mem_cons.mpr ⟨hc, ih⟩
  | group _ _ _ ih => exact ih

theorem foldl_addOutsideGroups (h : Grouped s own) (back : List Char) :
    s.foldl addOutsideGroups back = own.reverse ++ back := by
  induction h generalizing back with
  | nil => rfl
  | @char c s own hc _ ih =>
    have hne : c ≠ '>' := by rintro rfl; cases hc
    rw [foldl_cons, addOutsideGroups, if_neg hne, ih]
    simp
  | @group inner c cs s own hinner _ ihinner ih =>
    have hopen : addOutsideGroups back '<' = '<' :: back := rfl
    have hback : ∀ a ∈ (c :: cs).reverse, (!isAngle a) = true := by
      intro a ha
      rw [hinner.plain a (mem_reverse.mp ha)]
      rfl
    have hclose : addOutsideGroups ((c :: cs).reverse ++ '<' :: back) '>' = back := by
      rw [addOutsideGroups, if_pos rfl, takeWhile_append_of_pos hback,
        dropWhile_append_of_pos hback]
      obtain ⟨a, as, has⟩ := exists_cons_of_ne_nil (reverse_ne_nil_iff.mpr (cons_ne_nil c cs))
      rw [has]
      rfl
    rw [cons_append, foldl_cons, foldl_append, foldl_cons, hopen, ihinner, hclose, ih]

theorem eraseGroups (h : Grouped s own) : eraseGroups s = own := by
  rw [TypeChars.eraseGroups, h.foldl_addOutsideGroups, append_nil, reverse_reverse]

theorem splitArguments_append (h : Grouped s own) (hdepth : 0 ≤ depth) (hcomma : depth = 0 → ',' ∉ own)
    (part rest : List Char) :
    splitArguments depth part (s ++ rest) = splitArguments depth (s.reverse ++ part) rest := by
  induction h generalizing depth part rest with
  | nil => rfl
  | @char c s own hc _ ih =>
    have hangle : c ≠ '<' ∧ c ≠ '>' := by simpa [isAngle] using hc
    have hc : ¬ (c = ',' && depth == 0) = true := by
      intro h
      simp at h
      exact hcomma h.2 (h.1 ▸ .head _)
    rw [cons_append, splitArguments, if_neg hangle.1, if_neg hangle.2, if_neg hc,
      ih hdepth fun h hmem => hcomma h (.tail _ hmem)]
    simp
  | @group inner c cs s own _ _ ihinner ih =>
    rw [cons_append, cons_append, splitArguments, if_pos rfl, append_assoc,
      ihinner (by omega) (by omega), cons_append, splitArguments, if_neg (by decide), if_pos rfl,
      Int.add_sub_cancel, ih hdepth hcomma]
    simp

end Grouped

theorem splitArguments_trimRight (depth : Int) (part s : List Char) :
    splitArguments depth part (Chars.trimRight s) = splitArguments depth part s := by
  have hconcat : ∀ t c, isBlank c = true →
      ∀ depth part, splitArguments depth part (t ++ [c]) = splitArguments depth part t := by
    intro t c hc
    have hne : ∀ b, isBlank b = false → c ≠ b := fun b hb h => by simp [h, hb] at hc
    induction t with
    | nil =>
      intro depth part
      simp [splitArguments, hne '<' (by decide), hne '>' (by decide), hne ',' (by decide),
        Chars.trim_concat hc]
    | cons a t ih =>
      intro depth part
      simp only [cons_append, splitArguments, ih]
  induction s using reverseRecOn with
  | nil => rfl
  | append_singleton s c ih =>
    cases hc : isBlank c with
    | false => rw [Chars.trimRight_concat hc]
    | true => rw [Chars.trimRight_concat_blank hc, hconcat s c hc, ih]

theorem mem_of_mem_joinChars (hc : c ∈ joinChars sep ps) : c ∈ sep ∨ ∃ p ∈ ps, c ∈ p := by
  induction ps with
  | nil => cases hc
  | cons p ps ih =>
    cases ps with
    | nil => exact .inr ⟨p, .head _, by simpa [joinChars] using hc⟩
    | cons q ps =>
      have hcons : joinChars sep (p :: q :: ps) = p ++ (sep ++ joinChars sep (q :: ps)) := by
        simp [joinChars, intercalate]
      rw [hcons, mem_append, mem_append] at hc
      rcases hc with hc | hc | hc
      · exact .inr ⟨p, .head _, hc⟩
      · exact .inl hc
      · exact (ih hc).imp_right fun ⟨r, hr, hc⟩ => ⟨r, .tail _ hr, hc⟩

def argumentList (ps : List (List Char)) : List Char := joinChars ", ".toList ps

theorem argumentList_cons (p q : List Char) (ps : List (List Char)) :
    argumentList (p :: q :: ps) = p ++ ',' :: ' ' :: argumentList (q :: ps) := by
  simp [argumentList, joinChars, intercalate]

/-- A type argument: trimmed, on one line, with its brackets balanced and its commas inside of them. -/
structure IsArgument (p : List Char) : Prop where
  trimmed : Chars.trim p = p
  oneLine : '\n' ∉ p
  grouped : ∃ own, Grouped p own ∧ ',' ∉ own

theorem splitArguments_argumentList (h : ∀ q ∈ p :: ps, IsArgument q)
    (hpad : ∀ s, Chars.trim (pad.reverse ++ s) = Chars.trim s) :
    splitArguments 0 pad (argumentList (p :: ps)) = p :: ps := by
  induction ps generalizing p pad with
  | nil =>
    obtain ⟨own, hown, hcomma⟩ := (h p (.head _)).grouped
    have hsplit := hown.splitArguments_append (Int.le_refl 0) (fun _ => hcomma) pad []
    rw [append_nil] at hsplit
    simpa [argumentList, joinChars, hsplit, splitArguments, hpad] using (h p (.head _)).trimmed
  | cons q ps ih =>
    obtain ⟨own, hown, hcomma⟩ := (h p (.head _)).grouped
    have hrest : splitArguments 0 [' '] (argumentList (q :: ps)) = q :: ps :=
      ih (fun r hr => h r (.tail _ hr)) fun _ => rfl
    rw [argumentList_cons, hown.splitArguments_append (Int.le_refl 0) fun _ => hcomma]
    simp [splitArguments, hrest, hpad, (h p (.head _)).trimmed]

theorem trimLeft_argumentList (h : ∀ p ∈ ps, IsArgument p) :
    Chars.trimLeft (argumentList ps) = argumentList ps := by
  cases ps with
  | nil => rfl
  | cons p ps =>
    cases p with
    | nil => cases ps <;> rfl
    | cons c p =>
      have hc := isBlank_of_trim_eq (h _ (.head _)).trimmed
      cases ps with
      | nil => exact Chars.trimLeft_cons hc
      | cons q ps =>
        rw [argumentList_cons]
        exact Chars.trimLeft_cons hc

theorem eraseQualifiers_eq (h : ∀ q ∈ ownershipQualifiers, Chars.replace q.toList [] s = s) :
    eraseQualifiers s = s := by
  unfold eraseQualifiers
  generalize ownershipQualifiers = qs at h
  induction qs with
  | nil => rfl
  | cons q qs ih =>
    obtain ⟨hq, hqs⟩ := forall_mem_cons.mp h
    rw [foldl_cons, hq, ih hqs]

theorem replace_append_cons (hq : q ∈ ownershipQualifiers) (hc : isBreak c = true) (s t : List Char) :
    Chars.replace q.toList [] (s ++ c :: t) =
      Chars.replace q.toList [] s ++ c :: Chars.replace q.toList [] t := by
  have hall : ∀ q ∈ ownershipQualifiers, q.toList ≠ [] ∧ q.toList.all (isBreak · = false) := by decide
  obtain ⟨hne, hword⟩ := hall q hq
  have hmem : c ∉ q.toList := fun hmem => Bool.false_ne_true ((Chars.forall_mem hword c hmem).symm.trans hc)
  simp only [Chars.replace, isEmpty_eq_false_iff.mpr hne, Bool.false_eq_true, if_false]
  exact Chars.replaceFrom_append_cons hne hmem (Nat.zero_le _)

def pointerWords : List String := ["const", "volatile", "restrict"]

theorem pointerWords_solid (h : w ∈ pointerWords) : ∃ c ∈ w.toList.getLast?, isWord c = true := by
  have hall : ∀ w ∈ pointerWords, w.toList.getLast?.any isWord = true := by decide +kernel
  obtain ⟨c, hlast, hc⟩ := (Option.any_eq_true _ _).mp (hall w h)
  exact ⟨c, hlast, hc⟩

theorem dropWord_star (h : w ∈ pointerWords) : dropWord (s ++ ['*']) w = s ++ ['*'] := by
  refine if_neg fun hsuffix => ?_
  obtain ⟨c, hlast, hc⟩ := pointerWords_solid h
  obtain ⟨front, hfront⟩ := isSuffixOf_iff_suffix.mp hsuffix
  have hstar := congrArg getLast? hfront
  rw [getLast?_append, Option.mem_def.mp hlast, getLast?_concat] at hstar
  cases Option.some.inj hstar
  exact absurd hc (by decide +kernel)

theorem foldl_dropWord_prefix (words : List String) (t : List Char) : words.foldl dropWord t <+: t := by
  induction words generalizing t with
  | nil => exact prefix_rfl
  | cons word words ih =>
    have hdrop : dropWord t word <+: t := by
      unfold dropWord
      split
      · exact (Chars.trimRightBy_prefix _ _).trans ( take_prefix _ _)
      · exact prefix_rfl
    exact (ih _).trans hdrop

theorem cutLastClosing?_append (h : '>' ∉ rest) :
    cutLastClosing? (s ++ '>' :: rest) = some (s, rest) := by
  have hrest : ∀ c ∈ rest.reverse, (c != '>') = true := by
    intro c hc
    exact bne_iff_ne.mpr fun heq => h (heq ▸ mem_reverse.mp hc)
  simp only [cutLastClosing?, reverse_append, reverse_cons, append_assoc]
  rw [dropWhile_append_of_pos hrest, takeWhile_append_of_pos hrest]
  simp

theorem argumentText?_append (hname : ∀ c ∈ name, isWord c = true) (hs : s ≠ []) (hline : '\n' ∉ s) :
    argumentText? (initial :: name ++ '<' :: s ++ ['>', ' ', '*']) =
      if isNameStart initial then some s else none := by
  have hdrop : (name ++ '<' :: s ++ ['>', ' ', '*']).dropWhile isWord = '<' :: (s ++ ['>', ' ', '*']) := by
    have hangle : isWord '<' = false := isWord_of_isBreak (by decide)
    rw [append_assoc, dropWhile_append_of_pos hname]
    simp [hangle]
  have hcut : cutLastClosing? (s ++ ['>', ' ', '*']) = some (s, [' ', '*']) :=
    cutLastClosing?_append (by decide)
  have htail : Chars.trimLeft [' ', '*'] = ['*'] := by decide
  cases hinitial : isNameStart initial with
  | false => simp [argumentText?, hinitial]
  | true =>
    have htrim : Chars.trimLeft ('<' :: (s ++ ['>', ' ', '*'])) = '<' :: (s ++ ['>', ' ', '*']) :=
      Chars.trimLeft_cons (by decide)
    simp only [cons_append, argumentText?, hinitial] at hdrop ⊢
    rw [hdrop, htrim]
    simp [hcut, htail, hs, hline]

end TypeChars

open TypeChars

/-- The name of a class: it begins with a capital letter and is not that of the truth values. -/
structure NamesClass (initial : Char) (name : List Char) : Prop where
  capital : isUpper initial = true
  word : ∀ c ∈ initial :: name, isWord c = true
  ne_bool : initial :: name ≠ "BOOL".toList

namespace NamesClass

theorem trimRightBy_append (hp : ∀ c ∈ initial :: name, p c = false) :
    Chars.trimRightBy p (initial :: name ++ s) = initial :: name ++ Chars.trimRightBy p s := by
  obtain ⟨c, cs, hrev⟩ :=
    exists_cons_of_ne_nil (reverse_ne_nil_iff.mpr (cons_ne_nil initial name))
  have hc : p c = false := hp c (mem_reverse.mp (hrev ▸ .head _))
  unfold Chars.trimRightBy
  rw [reverse_append, dropWhile_append]
  split
  · next hs =>
    rw [isEmpty_iff.mp hs, hrev, dropWhile_cons_of_neg (by simp [hc]), ← hrev]
    simp
  · simp

variable (h : NamesClass initial name)

include h

theorem ne_break (hc : c ∈ initial :: name) (hbreak : isBreak b = true) :
    c ≠ b := by
  rintro rfl
  exact Bool.false_ne_true ((isWord_of_isBreak hbreak).symm.trans (h.word c hc))

theorem ne_i : initial ≠ 'i' := by
  rintro rfl
  exact absurd h.capital (by decide)

theorem not_blank (hc : c ∈ initial :: name) : isBlank c = false := by
  by_contra hblank
  exact Bool.false_ne_true ((isWord_of_isBlank (by simpa using hblank)).symm.trans (h.word c hc))

theorem trimRightBy_ne_bool (hopens : ∀ c ∈ s.head?, isBreak c = true) :
    Chars.trimRightBy (fun c => c = ' ' || c = '*') (initial :: name ++ s) ≠ "BOOL".toList := by
  have hp : ∀ c ∈ initial :: name, (c = ' ' || c = '*') = false := by
    intro c hc
    simp [h.ne_break hc (b := ' ') (by decide), h.ne_break hc (b := '*') (by decide)]
  rw [trimRightBy_append hp]
  cases hrest : Chars.trimRightBy (fun c => c = ' ' || c = '*') s with
  | nil => simpa using h.ne_bool
  | cons c rest =>
    obtain ⟨back, rfl⟩ : c :: rest <+: s := hrest ▸ Chars.trimRightBy_prefix _ s
    have hletters : ∀ b ∈ "BOOL".toList, isBreak b = false := Chars.forall_mem (by decide)
    intro heq
    have hc := hopens c rfl
    rw [hletters c (heq ▸ by simp)] at hc
    cases hc

theorem isObject_append (hcaret : '^' ∉ s)
    (hopens : ∀ c ∈ s.head?, isBreak c = true) :
    isObject (initial :: name ++ s) =
      ((pointerWords.foldl dropWord (initial :: name ++ s)).getLast? == some '*') := by
  have hblock : isBlock (initial :: name ++ s) = false := by
    have hmark : '^' ∉ initial :: name ++ s :=
      not_mem_append (fun hmem => h.ne_break hmem (b := '^') (by decide) rfl) hcaret
    rw [isBlock, Chars.has, Chars.cut?_of_not_mem (by decide) hmark]
    rfl
  have hid :
      (initial :: name ++ s = "id".toList || initial :: name ++ s = "instancetype".toList) = false := by
    simp [h.ne_i]
  have hbare := foldl_dropWord_prefix pointerWords (initial :: name ++ s)
  unfold isObject
  rw [hblock, hid, ← pointerWords]
  generalize pointerWords.foldl dropWord (initial :: name ++ s) = bare at hbare ⊢
  have hsuffix : "*".toList.isSuffixOf bare = (bare.getLast? == some '*') := by
    rw [Bool.eq_iff_iff, isSuffixOf_iff_suffix, beq_iff_eq, getLast?_eq_some_iff]
    exact exists_congr fun _ => eq_comm
  cases hlast : bare.getLast? == some '*' with
  | false =>
    cases bare with
    | nil => rfl
    | cons => simp only [Bool.false_eq_true, if_false, hsuffix, hlast, Bool.false_and]
  | true =>
    obtain ⟨front, hfront⟩ := getLast?_eq_some_iff.mp (beq_iff_eq.mp hlast)
    have hstar : '*' ∈ bare := by simp [hfront]
    -- A star ends it, so the whole name is left.
    obtain ⟨rest, rfl⟩ : initial :: name <+: bare := by
      refine ( prefix_or_prefix_of_prefix hbare (prefix_append _ s)).resolve_left fun hshort => ?_
      exact h.ne_break (hshort.subset hstar) (b := '*') (by decide) rfl
    obtain ⟨back, rfl⟩ := (prefix_append_right_inj _).mp hbare
    have hbool : Chars.trimRightBy (fun c => c = ' ' || c = '*') (initial :: name ++ rest) ≠ "BOOL".toList :=
      h.trimRightBy_ne_bool fun c hc => hopens c (by simp [Option.mem_def.mp hc])
    simp only [Bool.false_eq_true, if_false, cons_append] at hsuffix hlast hbool ⊢
    simp only [hsuffix, hlast, h.capital, bne_iff_ne.mpr hbool, Bool.and_true]

theorem structPointer_append :
    structPointer (initial :: name ++ [' ', '*']) = "struct ".toList ++ initial :: name ++ [' ', '*'] := by
  have hstar : ∀ c ∈ initial :: name, (c != '*') = true :=
    fun c hc => bne_iff_ne.mpr (h.ne_break hc (by decide))
  have hname : Chars.trimRight (initial :: name ++ [' ']) = initial :: name :=
    (trimRightBy_append fun c hc => h.not_blank hc).trans (append_nil _)
  have htake : (initial :: name ++ [' ', '*']).takeWhile (· != '*') = initial :: name ++ [' '] := 
    takeWhile_append_of_pos hstar
  have hdrop : (initial :: name ++ [' ', '*']).dropWhile (· != '*') = ['*'] :=
    dropWhile_append_of_pos hstar
  unfold structPointer
  rw [htake, hdrop, hname]
  simp [Chars.trim, Chars.trimRight, Chars.trimRightBy, Chars.trimLeft]

end NamesClass

/-- Type arguments are erased from the type and its C type whatever the name of the class. They are read back
exactly if it begins with a letter of the basic alphabet. -/
theorem type_arguments_read_back_iff (hcls : NamesClass initial name) (hps : ps ≠ [])
    (h : ∀ p ∈ ps, IsArgument p) (hgroup : Grouped (argumentList ps) own) (hown : own ≠ [])
    (hspelling : t.spelling.toList = initial :: name ++ '<' :: argumentList ps ++ ['>', ' ', '*'])
    (hunqualified : ∀ q ∈ ownershipQualifiers, ¬ q.toList <:+: t.spelling.toList) :
    SourceType.stripped t = .ofList (initial :: name ++ [' ', '*']) ∧ t.isObject = true ∧
      t.cType = .ofList ("struct ".toList ++ initial :: name ++ [' ', '*']) ∧
      (t.typeArguments = ps.map .ofList ↔ isNameStart initial = true) := by
  have herase := eraseQualifiers_eq fun q hq => Chars.replace_of_not_infix (hunqualified q hq)
  have htrim : ∀ s, Chars.trim (initial :: s ++ [' ', '*']) = initial :: s ++ [' ', '*'] := by
    intro s
    rw [Chars.trim, cons_append, Chars.trimLeft_cons (hcls.not_blank (.head _)), ← cons_append]
    simpa using Chars.trimRight_concat (s := initial :: s ++ [' ']) (c := '*') (by decide)
  have hgrouped : Grouped t.spelling.toList (initial :: name ++ [' ', '*']) := by
    obtain ⟨c, own, rfl⟩ := exists_cons_of_ne_nil hown
    have hname : Grouped (initial :: name) (initial :: name) := .of_plain fun c hc => by
      simp [isAngle, hcls.ne_break hc (b := '<') (by decide), hcls.ne_break hc (b := '>') (by decide)]
    have hend : Grouped [' ', '*'] [' ', '*'] := .of_plain (Chars.forall_mem (by decide))
    rw [hspelling]
    simpa using hname.append (.group hgroup hend)
  have hstrip : strip t.spelling.toList = initial :: name ++ [' ', '*'] := by
    rw [strip, herase, hgrouped.eraseGroups, htrim]
  have hobject : isObject (initial :: name ++ [' ', '*']) = true := by
    have hbare : pointerWords.foldl dropWord (initial :: name ++ [' '] ++ ['*']) =
        initial :: name ++ [' '] ++ ['*'] := by
      simp only [pointerWords, foldl]
      rw [dropWord_star (by decide), dropWord_star (by decide), dropWord_star (by decide)]
    rw [append_assoc, singleton_append] at hbare
    rw [hcls.isObject_append (by decide) (by rintro _ ⟨⟩; decide), hbare, getLast?_append]
    rfl
  refine ⟨congrArg String.ofList hstrip, ?_, ?_, ?_⟩
  · rw [SourceType.isObject, hstrip, hobject]
  · have hcaret : '^' ∉ initial :: name ++ [' ', '*'] :=
      not_mem_append (fun hmem => hcls.ne_break hmem (b := '^') (by decide) rfl) (by decide)
    rw [SourceType.cType, toC, hstrip, Chars.cut?_of_not_mem (by decide) hcaret, ← hcls.structPointer_append]
    simp only [cons_append] at hobject
    simp [hobject, hcls.ne_i]
  · have harguments : Chars.trim (eraseQualifiers t.spelling.toList) =
        initial :: name ++ '<' :: argumentList ps ++ ['>', ' ', '*'] := by
      rw [herase, hspelling]
      simpa using htrim (name ++ '<' :: argumentList ps ++ ['>'])
    have hsplit : splitArguments 0 [] (Chars.trim (argumentList ps)) = ps := by
      rw [Chars.trim, splitArguments_trimRight, trimLeft_argumentList h]
      obtain ⟨p, ps, rfl⟩ := exists_cons_of_ne_nil hps
      exact splitArguments_argumentList h fun _ => rfl
    have hne : argumentList ps ≠ [] := by
      intro hnil
      rw [hnil] at hgroup
      cases hgroup
      exact hown rfl
    have hline : '\n' ∉ argumentList ps := by
      intro hmem
      rcases mem_of_mem_joinChars hmem with hsep | ⟨p, hp, hmem⟩
      · exact absurd hsep (by decide)
      · exact (h p hp).oneLine hmem
    rw [SourceType.typeArguments, harguments,
      argumentText?_append (fun c hc => hcls.word c (.tail _ hc)) hne hline]
    cases isNameStart initial <;> simp [hsplit, hps]

theorem map_arguments_read_back :
    let t : SourceType := ⟨.text "Map<Key *, List<Pair<A, B> *> *> *"⟩
    t.isObject = true ∧ t.typeArguments = ["Key *", "List<Pair<A, B> *> *"] := by
  have hpair : Grouped "Pair<A, B> *".toList "Pair *".toList :=
    (Grouped.of_plain (s := "Pair".toList) (Chars.forall_mem (by decide))).append
      (.group (.of_plain (s := "A, B".toList) (Chars.forall_mem (by decide))) (.of_plain (s := " *".toList) (Chars.forall_mem (by decide))))
  have hlist : Grouped "List<Pair<A, B> *> *".toList "List *".toList :=
    (Grouped.of_plain (s := "List".toList) (Chars.forall_mem (by decide))).append
      (.group hpair (.of_plain (s := " *".toList) (Chars.forall_mem (by decide))))
  have hkey : Grouped "Key *".toList "Key *".toList := .of_plain (Chars.forall_mem (by decide))
  have h : ∀ p ∈ ["Key *".toList, "List<Pair<A, B> *> *".toList], IsArgument p :=
    forall_mem_cons.mpr ⟨⟨by decide, by decide, _, hkey, by decide⟩,
      forall_mem_cons.mpr ⟨⟨by decide, by decide, _, hlist, by decide⟩, forall_mem_nil _⟩⟩
  have hcls : NamesClass 'M' "ap".toList := ⟨by decide +kernel, Chars.forall_mem (by decide +kernel), by decide⟩
  have hmap := type_arguments_read_back_iff (t := ⟨.text "Map<Key *, List<Pair<A, B> *> *> *"⟩) hcls
    (cons_ne_nil _ _) h (hkey.append ((Grouped.of_plain (s := ", ".toList) (Chars.forall_mem (by decide))).append hlist))
    (by decide) (by decide) (by decide +kernel)
  exact ⟨hmap.2.1, hmap.2.2.2.mpr (by decide)⟩

theorem accented_class_loses_arguments :
    let t : SourceType := ⟨.text "Élan<A *> *"⟩
    NamesClass 'É' "lan".toList ∧ t.isObject = true ∧ t.stripped = "Élan *" ∧ t.typeArguments ≠ ["A *"] :=
  ⟨⟨by decide +kernel, Chars.forall_mem (by decide +kernel), by decide⟩, by decide +kernel, by decide +kernel, by decide +kernel⟩

end ObjcLowering
