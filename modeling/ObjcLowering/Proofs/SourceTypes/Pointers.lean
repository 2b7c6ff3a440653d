import ObjcLowering.Lowering.Ownership
import ObjcLowering.Proofs.SourceTypes.Groups

/-! Which pointers to a class count as objects. -/

namespace ObjcLowering

open Text List

namespace TypeChars

variable {ws qs : List String}

def levelWords : List String := "" :: pointerWords ++ ownershipQualifiers

def spaced (ws : List String) : List Char := joinChars [' '] (ws.map String.toList)

def levelsText (levels : List (List String)) : List Char := levels.flatMap fun ws => '*' :: spaced ws

theorem spaced_cons (w v : String) (ws : List String) :
    spaced (w :: v :: ws) = w.toList ++ ' ' :: spaced (v :: ws) := by
  simp [spaced, joinChars, intercalate]

theorem levelWord_of_mem (hc : c ∈ levelsText levels) (h : ∀ ws ∈ levels, ∀ w ∈ ws, w ∈ levelWords) :
    c = '*' ∨ c = ' ' ∨ ∃ w ∈ levelWords, c ∈ w.toList := by
  obtain ⟨ws, hws, hc⟩ := mem_flatMap.mp hc
  rcases mem_cons.mp hc with hc | hc
  · exact .inl hc
  · rcases mem_of_mem_joinChars hc with hc | ⟨p, hp, hc⟩
    · exact .inr (.inl (mem_singleton.mp hc))
    · obtain ⟨w, hw, rfl⟩ := mem_map.mp hp
      exact .inr (.inr ⟨w, h ws hws w hw, hc⟩)

def eraseWord (q w : String) : String := if w = q then "" else w

theorem replace_levelWord (hq : q ∈ ownershipQualifiers) (hw : w ∈ levelWords) :
    Chars.replace q.toList [] w.toList = (eraseWord q w).toList := by
  have hall : ∀ q ∈ ownershipQualifiers, ∀ w ∈ levelWords,
      Chars.replace q.toList [] w.toList = (eraseWord q w).toList := by decide
  exact hall q hq w hw

theorem replace_spaced (hq : q ∈ ownershipQualifiers) (h : ∀ w ∈ ws, w ∈ levelWords) :
    Chars.replace q.toList [] (spaced ws) = spaced (ws.map (eraseWord q)) := by
  induction ws with
  | nil => exact Chars.replace_nil _ _
  | cons w ws ih =>
    obtain ⟨hw, hws⟩ := forall_mem_cons.mp h
    cases ws with
    | nil => simpa [spaced, joinChars] using replace_levelWord hq hw
    | cons v ws =>
      rw [spaced_cons, replace_append_cons hq (by decide), ih hws, replace_levelWord hq hw]
      exact (spaced_cons _ _ _).symm

theorem replace_levelsText (hq : q ∈ ownershipQualifiers) (h : ∀ ws ∈ levels, ∀ w ∈ ws, w ∈ levelWords)
    (s : List Char) :
    Chars.replace q.toList [] (s ++ levelsText levels) =
      Chars.replace q.toList [] s ++ levelsText (levels.map (·.map (eraseWord q))) := by
  induction levels generalizing s with
  | nil => simp [levelsText]
  | cons ws levels ih =>
    obtain ⟨hws, hlevels⟩ := forall_mem_cons.mp h
    have hcons : ∀ ws levels, levelsText (ws :: levels) = '*' :: (spaced ws ++ levelsText levels) :=
      fun _ _ => rfl
    rw [hcons, replace_append_cons hq (by decide), ih hlevels, replace_spaced hq hws, map_cons, hcons]

theorem eraseWord_mem (hw : w ∈ levelWords) : eraseWord q w ∈ levelWords := by
  unfold eraseWord
  split
  · exact .head _
  · exact hw

def unowned (w : String) : String := ownershipQualifiers.foldl (fun w q => eraseWord q w) w

theorem eraseQualifiers_levelsText (hs : ∀ q ∈ ownershipQualifiers, Chars.replace q.toList [] s = s)
    (h : ∀ ws ∈ levels, ∀ w ∈ ws, w ∈ levelWords) :
    eraseQualifiers (s ++ levelsText levels) = s ++ levelsText (levels.map (·.map unowned)) := by
  have hfold : ∀ qs : List String, (∀ q ∈ qs, q ∈ ownershipQualifiers) →
      ∀ levels : List (List String), (∀ ws ∈ levels, ∀ w ∈ ws, w ∈ levelWords) →
      qs.foldl (fun s q => Chars.replace q.toList [] s) (s ++ levelsText levels) =
        s ++ levelsText (levels.map (·.map fun w => qs.foldl (fun w q => eraseWord q w) w)) := by
    intro qs hqs
    induction qs with
    | nil => simp
    | cons q qs ih =>
      intro levels h
      obtain ⟨hq, hqs⟩ := forall_mem_cons.mp hqs
      have hnext : ∀ ws ∈ levels.map (·.map (eraseWord q)), ∀ w ∈ ws, w ∈ levelWords := by
        simp only [forall_mem_map]
        exact fun ws hws w hw => eraseWord_mem (h ws hws w hw)
      rw [foldl_cons, replace_levelsText hq h, hs q hq, ih hqs _ hnext]
      simp [Function.comp_def]
  exact hfold _ (fun _ hq => hq) levels h

def endText (front : List Char) (ws : List String) : List Char :=
  front ++ '*' :: ws.reverse.flatMap fun w => w.toList ++ [' ']

def endTrimmed (front : List Char) (ws : List String) : List Char := Chars.trimRight (endText front ws)

theorem endText_cons (front : List Char) (w : String) (ws : List String) :
    endText front (w :: ws) = endText front ws ++ w.toList ++ [' '] := by
  simp [endText]

theorem endTrimmed_empty (front : List Char) (ws : List String) :
    endTrimmed front ("" :: ws) = endTrimmed front ws := by
  rw [endTrimmed, endText_cons, Chars.trimRight_concat_blank (by decide)]
  simp [endTrimmed]

theorem endTrimmed_cons (hw : w ∈ pointerWords) :
    endTrimmed front (w :: ws) = endText front ws ++ w.toList := by
  obtain ⟨c, hlast, hc⟩ := pointerWords_solid hw
  obtain ⟨s, hs⟩ := getLast?_eq_some_iff.mp hlast
  have hblank : isBlank c = false := by
    by_contra h
    exact Bool.false_ne_true ((isWord_of_isBlank (by simpa using h)).symm.trans hc)
  rw [endTrimmed, endText_cons, Chars.trimRight_concat_blank (by decide), hs, ← append_assoc,
    Chars.trimRight_concat hblank]

theorem endTrimmed_nil (front : List Char) : endTrimmed front [] = front ++ ['*'] :=
  Chars.trimRight_concat (by decide)

theorem dropWord_endTrimmed_self (hw : w ∈ pointerWords) :
    dropWord (endTrimmed front (w :: ws)) w = endTrimmed front ws := by
  rw [endTrimmed_cons hw, dropWord, if_pos (isSuffixOf_iff_suffix.mpr (suffix_append _ _))]
  simp [endTrimmed]

theorem dropWord_endTrimmed_ne (hw : w ∈ pointerWords) (hq : q ∈ pointerWords) (hne : w ≠ q) :
    dropWord (endTrimmed front (w :: ws)) q = endTrimmed front (w :: ws) := by
  obtain ⟨s, c, hs, hc⟩ : ∃ s c, endText front ws = s ++ [c] ∧ (c = ' ' ∨ c = '*') := by
    cases ws with
    | nil => exact ⟨front, '*', rfl, .inr rfl⟩
    | cons v ws => exact ⟨_, ' ', endText_cons front v ws, .inl rfl⟩
  have hwords : ∀ w ∈ pointerWords, ∀ q ∈ pointerWords, q.toList <:+ w.toList → w = q := by decide
  have hbreaks : ∀ q ∈ pointerWords, ' ' ∉ q.toList ∧ '*' ∉ q.toList := by decide
  have hmem : c ∉ q.toList := by
    rcases hc with rfl | rfl
    · exact (hbreaks q hq).1
    · exact (hbreaks q hq).2
  rw [endTrimmed_cons hw, hs, append_assoc, singleton_append]
  refine if_neg fun hsuffix => ?_
  rcases suffix_or_suffix_of_suffix (isSuffixOf_iff_suffix.mp hsuffix) (suffix_append s _)
    with hshort | hlong
  · rcases suffix_cons_iff.mp hshort with heq | hshort
    · exact hmem (heq ▸ .head _)
    · exact hne (hwords w hw q hq hshort)
  · exact hmem (hlong.subset (.head _))

theorem getLast?_foldl_dropWord (hws : ∀ w ∈ ws, w = "" ∨ w ∈ pointerWords)
    (hqs : ∀ q ∈ qs, q ∈ pointerWords) :
    (qs.foldl dropWord (endTrimmed front ws)).getLast? = some '*' ↔ (ws.filter (· ≠ "")).Sublist qs := by
  have hne : ∀ w ∈ pointerWords, w ≠ "" := by decide
  induction qs generalizing ws with
  | nil =>
    induction ws with
    | nil => simp [endTrimmed_nil]
    | cons w ws ih =>
      obtain ⟨hw, htail⟩ := forall_mem_cons.mp hws
      rcases hw with rfl | hw
      · simpa [endTrimmed_empty] using ih htail
      · obtain ⟨c, hlast, hc⟩ := pointerWords_solid hw
        have hstar : c ≠ '*' := by
          rintro rfl
          exact absurd hc (by decide +kernel)
        simp [endTrimmed_cons hw, Option.mem_def.mp hlast, hstar, hne w hw]
  | cons q qs ihqs =>
    obtain ⟨hq, hrest⟩ := forall_mem_cons.mp hqs
    rw [foldl_cons]
    induction ws with
    | nil =>
      rw [endTrimmed_nil, dropWord_star hq, ← endTrimmed_nil]
      simpa using ihqs hws hrest
    | cons w ws ih =>
      obtain ⟨hw, htail⟩ := forall_mem_cons.mp hws
      rcases hw with rfl | hw
      · simpa [endTrimmed_empty] using ih htail
      · have hfilter : (w :: ws).filter (· ≠ "") = w :: ws.filter (· ≠ "") := by simp [hne w hw]
        by_cases heq : w = q
        · rw [hfilter, heq, cons_sublist_cons, dropWord_endTrimmed_self hq]
          exact ihqs htail hrest
        · rw [dropWord_endTrimmed_ne hw hq heq]
          refine (ihqs hws hrest).trans ?_
          rw [hfilter, sublist_cons_iff]
          simp [heq]

def Peels (levels : List (List String)) : Prop :=
  ∃ ws ∈ levels.getLast?, (ws.filter pointerWords.contains).reverse.Sublist pointerWords

theorem unowned_levelWord (hw : w ∈ levelWords) :
    (unowned w = "" ∨ unowned w ∈ pointerWords) ∧ (w ∈ pointerWords → unowned w = w) ∧
      (w ∉ pointerWords → unowned w = "") := by
  have hall : ∀ w ∈ levelWords, (unowned w = "" ∨ unowned w ∈ pointerWords) ∧
      (w ∈ pointerWords → unowned w = w) ∧ (w ∉ pointerWords → unowned w = "") := by decide
  exact hall w hw

theorem filter_map_unowned (h : ∀ w ∈ ws, w ∈ levelWords) :
    (ws.map unowned).filter (· ≠ "") = ws.filter pointerWords.contains := by
  have hne : ∀ w ∈ pointerWords, w ≠ "" := by decide
  induction ws with
  | nil => rfl
  | cons w ws ih =>
    obtain ⟨hw, hws⟩ := forall_mem_cons.mp h
    have ih := ih hws
    by_cases hmem : w ∈ pointerWords
    · simp [(unowned_levelWord hw).2.1 hmem, hmem, hne w hmem] at ih ⊢
      exact ih
    · simp [(unowned_levelWord hw).2.2 hmem, hmem] at ih ⊢
      exact ih

theorem trimRight_spaced (front : List Char) (ws : List String) :
    Chars.trimRight (front ++ '*' :: spaced ws) = endTrimmed front ws.reverse := by
  have hspaced : ∀ w ws, spaced (w :: ws) ++ [' '] = (w :: ws).flatMap fun w => w.toList ++ [' '] := by
    intro w ws
    induction ws generalizing w with
    | nil => simp [spaced, joinChars]
    | cons v ws ih =>
      rw [spaced_cons, flatMap_cons, ← ih]
      simp
  rw [endTrimmed, endText, reverse_reverse]
  cases ws with
  | nil => rfl
  | cons w ws =>
    rw [← hspaced, ← cons_append, ← append_assoc, Chars.trimRight_concat_blank (by decide)]

def unownedText (levels : List (List String)) : List Char := ' ' :: levelsText (levels.map (·.map unowned))

theorem plain_of_mem_unownedText (h : ∀ ws ∈ levels, ∀ w ∈ ws, w ∈ levelWords) (hc : c ∈ unownedText levels) :
    isAngle c = false ∧ c ≠ '^' := by
  have hunowned : ∀ ws ∈ levels.map (·.map unowned), ∀ w ∈ ws, w ∈ levelWords := by
    simp only [forall_mem_map]
    intro ws hws w hw
    rcases (unowned_levelWord (h ws hws w hw)).1 with heq | hmem
    · rw [heq]
      exact .head _
    · exact mem_append_left _ (.tail _ hmem)
  have hall : ∀ w ∈ levelWords, w.toList.all (fun c => isAngle c = false ∧ c ≠ '^') := by decide
  rcases mem_cons.mp hc with rfl | hc
  · decide
  · rcases levelWord_of_mem hc hunowned with rfl | rfl | ⟨w, hw, hc⟩
    · decide
    · decide
    · exact Chars.forall_mem (hall w hw) c hc

theorem strip_levelsText (hcls : NamesClass initial name)
    (hunqualified : ∀ q ∈ ownershipQualifiers, ¬ q.toList <:+: initial :: name)
    (hlevels : ∀ ws ∈ levels, ∀ w ∈ ws, w ∈ levelWords) :
    strip (initial :: name ++ ' ' :: levelsText levels) =
      Chars.trimRight (initial :: name ++ unownedText levels) := by
  have hblank : ∀ q ∈ ownershipQualifiers,
      Chars.replace q.toList [] (initial :: name ++ [' ']) = initial :: name ++ [' '] := by
    intro q hq
    rw [replace_append_cons hq (by decide), Chars.replace_of_not_infix (hunqualified q hq), Chars.replace_nil]
  have herase := eraseQualifiers_levelsText hblank hlevels
  rw [append_assoc, append_assoc, singleton_append, singleton_append] at herase
  have hgroups : ∀ c ∈ initial :: name ++ unownedText levels, isAngle c = false := by
    intro c hc
    rcases mem_append.mp hc with hc | hc
    · simp [isAngle, hcls.ne_break hc (b := '<') (by decide), hcls.ne_break hc (b := '>') (by decide)]
    · exact (plain_of_mem_unownedText hlevels hc).1
  rw [strip, herase, ← unownedText, (Grouped.of_plain hgroups).eraseGroups, Chars.trim, cons_append,
    Chars.trimLeft_cons (hcls.not_blank (.head _))]

theorem getLast?_foldl_levelsText (hcls : NamesClass initial name)
    (hlevels : ∀ ws ∈ levels, ∀ w ∈ ws, w ∈ levelWords) :
    (pointerWords.foldl dropWord
      (Chars.trimRight (initial :: name ++ unownedText levels))).getLast? = some '*' ↔
      Peels levels := by
  cases eq_nil_or_concat levels with
  | inl hnil =>
    subst hnil
    have hprefix := ( foldl_dropWord_prefix pointerWords _).trans
      (Chars.trimRightBy_prefix isBlank (initial :: name ++ [' ']))
    refine iff_of_false (fun hlast => ?_) (fun ⟨_, hmem, _⟩ => by cases hmem)
    rcases mem_append.mp ( hprefix.subset (mem_of_getLast? hlast)) with hmem | hmem
    · exact hcls.ne_break hmem (b := '*') (by decide) rfl
    · cases mem_singleton.mp hmem
  | inr hconcat =>
    obtain ⟨front, ws, rfl⟩ := hconcat
    have hws : ∀ w ∈ ws, w ∈ levelWords := hlevels ws (by simp)
    have htext : initial :: name ++ unownedText (front.concat ws) =
        (initial :: name ++ unownedText front) ++ '*' :: spaced (ws.map unowned) := by
      simp [unownedText, levelsText]
    have hend : ∀ w ∈ (ws.map unowned).reverse, w = "" ∨ w ∈ pointerWords := by
      simp only [mem_reverse, forall_mem_map]
      exact fun w hw => (unowned_levelWord (hws w hw)).1
    rw [htext, trimRight_spaced, getLast?_foldl_dropWord hend fun _ hq => hq, filter_reverse,
      filter_map_unowned hws]
    simp [Peels]

end TypeChars

open TypeChars

/-- A pointer to a class counts as an object exactly if the words after the last star come in the order in
which they are peeled off, however many stars there are. -/
theorem pointer_isObject_iff (hcls : NamesClass initial name)
    (hunqualified : ∀ q ∈ ownershipQualifiers, ¬ q.toList <:+: initial :: name)
    (hlevels : ∀ ws ∈ levels, ∀ w ∈ ws, w ∈ levelWords)
    (hspelling : t.spelling.toList = initial :: name ++ ' ' :: levelsText levels) :
    (SourceType.isObject t = true ↔ Peels levels) ∧
      (∀ params, ∀ p ∈ params, p.type = t → (p ∈ Lowering.objectParams params ↔ Peels levels)) ∧
      ∀ cls : ClassDecl, ∀ v ∈ cls.ivars, v.type = t →
        (v ∈ Lowering.strongIvars cls ↔ Peels levels ∧ t.isUnretained = false) := by
  have hobject : SourceType.isObject t = true ↔ Peels levels := by
    obtain ⟨back, hback⟩ := Chars.trimRightBy_prefix isBlank (unownedText levels)
    have hcaret : '^' ∉ Chars.trimRightBy isBlank (unownedText levels) := by
      intro hmem
      exact (plain_of_mem_unownedText hlevels (hback ▸ mem_append_left back hmem)).2 rfl
    have hopens : ∀ c ∈ (Chars.trimRightBy isBlank (unownedText levels)).head?, isBreak c = true := by
      intro c hc
      have hhead := congrArg head? hback
      rw [head?_append, Option.mem_def.mp hc] at hhead
      cases hhead
      decide
    have htrim : Chars.trimRight (initial :: name ++ unownedText levels) =
        initial :: name ++ Chars.trimRightBy isBlank (unownedText levels) :=
      NamesClass.trimRightBy_append fun c hc => hcls.not_blank hc
    rw [SourceType.isObject, hspelling, strip_levelsText hcls hunqualified hlevels, htrim,
      hcls.isObject_append hcaret hopens, beq_iff_eq, ← htrim]
    exact getLast?_foldl_levelsText hcls hlevels
  refine ⟨hobject, ?_, ?_⟩
  · rintro params p hp rfl
    simp [Lowering.objectParams, hp, hobject]
  · rintro cls v hv rfl
    simp [Lowering.strongIvars, SourceType.isStrongObject, hv, hobject]

theorem const_led_is_object :
    (SourceType.mk (.text "Led *__strong const *volatile const")).isObject = true := by
  have hcls : NamesClass 'L' "ed".toList := ⟨by decide +kernel, Chars.forall_mem (by decide +kernel), by decide⟩
  have hlevels : ∀ ws ∈ [["__strong", "const", ""], ["volatile", "const"]], ∀ w ∈ ws, w ∈ levelWords := by
    decide
  exact (pointer_isObject_iff hcls (by decide) hlevels rfl).1.mpr ⟨["volatile", "const"], rfl, by decide⟩

theorem pointer_to_pointer_is_object :
    let out : Param := ⟨.text "out", ⟨.text "Led **"⟩⟩
    out.type.isObject = true ∧ Lowering.objectParams [out] = [out] ∧
      (SourceType.mk (.text "Led *const volatile")).isObject = false := by
  decide +kernel

end ObjcLowering
