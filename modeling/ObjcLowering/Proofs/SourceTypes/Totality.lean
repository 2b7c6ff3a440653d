import ObjcLowering.Proofs.Module.TypeRecovery
import ObjcLowering.Proofs.SourceTypes.Groups

/-! Reading a type comes to an end, and nothing that is looked up in its text is missing. -/

namespace ObjcLowering

open Text List

namespace TypeChars

/-- What follows the bracket group at the front of a text, where there are no brackets in the group. -/
def afterGroup? : List Char → Option (List Char)
  | '<' :: s =>
    match s.takeWhile (!isAngle ·), s.dropWhile (!isAngle ·) with
    | _ :: _, '>' :: rest => some rest
    | _, _ => none
  | _ => none

theorem afterGroup?_eq_some_iff : afterGroup? s = some rest ↔
    ∃ c own, (∀ a ∈ c :: own, isAngle a = false) ∧ s = '<' :: (c :: own) ++ '>' :: rest := by
  constructor
  · intro h
    unfold afterGroup? at h
    split at h
    · next s =>
      split at h
      · next c own after hown hafter =>
        cases h
        refine ⟨c, own, fun a ha => ?_, ?_⟩
        · have hplain := mem_takeWhile_imp (p := (!isAngle ·)) (hown ▸ ha)
          simpa using hplain
        · rw [cons_append, ← hown, ← hafter, takeWhile_append_dropWhile]
      · cases h
    · cases h
  · rintro ⟨c, own, hown, rfl⟩
    have hplain : ∀ a ∈ c :: own, (!isAngle a) = true := fun a ha => by rw [hown a ha]; rfl
    have htake := @takeWhile_append_of_pos _ _ _ ('>' :: rest) hplain
    have hdrop := @dropWhile_append_of_pos _ _ _ ('>' :: rest) hplain
    simp only [cons_append, afterGroup?] at htake hdrop ⊢
    rw [htake, hdrop]
    simp [isAngle]

theorem length_of_afterGroup? (h : afterGroup? s = some rest) : rest.length < s.length := by
  obtain ⟨c, own, -, rfl⟩ := afterGroup?_eq_some_iff.mp h
  simp
  omega

def eraseRound : List Char → List Char
  | [] => []
  | c :: s =>
    match _h : afterGroup? (c :: s) with
    | some rest => eraseRound rest
    | none => c :: eraseRound s
termination_by s => s.length
decreasing_by
  · exact length_of_afterGroup? _h
  · exact Nat.lt_succ_self _

inductive Settles : List Char → List Char → Prop
  | still : eraseRound s = s → Settles s s
  | round : eraseRound s ≠ s → Settles (eraseRound s) t → Settles s t

theorem length_eraseRound_le (s : List Char) : (eraseRound s).length ≤ s.length := by
  fun_induction eraseRound s with
  | case1 => exact Nat.le_refl _
  | case2 c s rest h ih => exact ih.trans (length_of_afterGroup? h).le
  | case3 c s h ih => exact Nat.succ_le_succ ih

theorem length_eraseRound_lt (h : eraseRound s ≠ s) : (eraseRound s).length < s.length := by
  fun_induction eraseRound s with
  | case1 => exact absurd rfl h
  | case2 c s rest hrest ih => exact (length_eraseRound_le rest).trans_lt (length_of_afterGroup? hrest)
  | case3 c s hrest ih => exact Nat.succ_lt_succ (ih fun heq => h (by rw [heq]))

theorem foldl_eraseRound (s back : List Char) :
    (eraseRound s).foldl addOutsideGroups back = s.foldl addOutsideGroups back := by
  fun_induction eraseRound s generalizing back with
  | case1 => rfl
  | case2 c s rest h ih =>
    obtain ⟨a, own, hown, hs⟩ := afterGroup?_eq_some_iff.mp h
    have hgroup := (Grouped.group (.of_plain hown) .nil).foldl_addOutsideGroups back
    rw [hs, ih, append_cons, foldl_append, hgroup]
    rfl
  | case3 c s h ih => rw [foldl_cons, foldl_cons, ih]

theorem afterGroup?_of_still (h : eraseRound s = s) (hsuffix : t <:+ s) : afterGroup? t = none := by
  induction s with
  | nil =>
    rw [suffix_nil.mp hsuffix]
    rfl
  | cons c s ih =>
    rw [eraseRound] at h
    split at h
    · next rest hrest =>
      have hlt := (length_eraseRound_le rest).trans_lt (length_of_afterGroup? hrest)
      rw [h] at hlt
      exact absurd hlt (Nat.lt_irrefl _)
    · next hnone =>
      rcases suffix_cons_iff.mp hsuffix with rfl | hsuffix
      · exact hnone
      · exact ih (cons.inj h).2 hsuffix

theorem foldl_addOutsideGroups_of_still (h : eraseRound (back.reverse ++ s) = back.reverse ++ s) :
    s.foldl addOutsideGroups back = s.reverse ++ back := by
  induction s generalizing back with
  | nil => rfl
  | cons c s ih =>
    have hkept : addOutsideGroups back c = c :: back := by
      unfold addOutsideGroups
      split
      · next hc =>
        split
        · next a own front hown hfront =>
          have hplain : ∀ b ∈ (a :: own).reverse, isAngle b = false := by
            intro b hb
            have hb := mem_takeWhile_imp (p := (!isAngle ·)) (hown ▸ mem_reverse.mp hb)
            simpa using hb
          obtain ⟨d, rest, hrest⟩ := exists_cons_of_ne_nil (reverse_ne_nil_iff.mpr (cons_ne_nil a own))
          have hback : back.reverse = front.reverse ++ '<' :: (a :: own).reverse := by
            rw [← takeWhile_append_dropWhile (p := (!isAngle ·)) (l := back), hown, hfront]
            simp
          have hafter : afterGroup? ('<' :: (d :: rest) ++ '>' :: s) = some s :=
            afterGroup?_eq_some_iff.mpr ⟨d, rest, hrest ▸ hplain, rfl⟩
          have hsuffix : '<' :: (d :: rest) ++ '>' :: s <:+ back.reverse ++ c :: s := by
            rw [hback, hc, hrest, append_assoc]
            exact suffix_append _ _
          rw [afterGroup?_of_still h hsuffix] at hafter
          cases hafter
        · rfl
      · rfl
    rw [foldl_cons, hkept, ih (by simpa using h)]
    simp

theorem eraseGroups_of_still (h : eraseRound s = s) : eraseGroups s = s := by
  rw [eraseGroups, @foldl_addOutsideGroups_of_still _ [] h]
  simp

theorem settles_iff : Settles s t ↔ t = eraseGroups s := by
  constructor
  · intro h
    induction h with
    | still h => exact (eraseGroups_of_still h).symm
    | round _ _ ih => rw [ih, eraseGroups, foldl_eraseRound, ← eraseGroups]
  · rintro rfl
    induction hlength : s.length using Nat.strong_induction_on generalizing s with
    | _ n ih =>
      by_cases h : eraseRound s = s
      · rw [eraseGroups_of_still h]
        exact .still h
      · have hsettles := ih _ (hlength ▸ length_eraseRound_lt h) rfl
        rw [eraseGroups, foldl_eraseRound, ← eraseGroups] at hsettles
        exact .round h hsettles

def readObject (t : List Char) : Option Bool := do
  if isBlock t then return false
  if t = "id".toList || t = "instancetype".toList then return true
  let bare := ["const", "volatile", "restrict"].foldl dropWord t
  if "*".toList.isSuffixOf bare then
    if isUpper (← bare.head?) then
      return Chars.trimRightBy (fun c => c = ' ' || c = '*') bare != "BOOL".toList
  return false

def readPointer (t : List Char) : Option (List Char) := do
  let (name, suffix) ← Chars.cut? ['*'] t
  return "struct ".toList ++ Chars.trimRight name ++ " *".toList ++ Chars.trim suffix

def readBlock (t : List Char) : Option (List Char × List (List Char)) :=
  (Chars.cut? blockMark t).map fun cut => (Chars.trim cut.1, blockParams cut.2)

def readC (part : List Char → Option (List Char)) (t : List Char) : Option (List Char) := do
  if isBlock t then
    let block ← readBlock t
    let result ← if block.1.isEmpty then some "void".toList else part block.1
    let params ← block.2.mapM part
    let params := if params.isEmpty then "void".toList else joinChars ", ".toList params
    return result ++ " (*)(".toList ++ params ++ ")".toList
  else if t = "id".toList || t = "instancetype".toList then return "struct OZObject *".toList
  else if t = "id *".toList then return "struct OZObject **".toList
  else if ← readObject t then readPointer t
  else return t

def partsOf (t : List Char) : List (List Char) :=
  (readBlock t).elim [] fun block => if block.1.isEmpty then block.2 else block.1 :: block.2

/-- How the C type of a type is read: after the rounds of erasure, from its parts, which are read likewise.
Without a derivation the reading would not end; `none` is read where something is missing. -/
inductive Reads : List Char → Option (List Char) → Prop
  | of_parts : Settles (eraseQualifiers s) u → (∀ p ∈ partsOf (Chars.trim u), Reads p (part p)) →
      Reads s (readC part (Chars.trim u))

theorem readObject_eq (t : List Char) : readObject t = some (isObject t) := by
  unfold readObject isObject
  split
  · rfl
  split
  · rfl
  dsimp only
  generalize ["const", "volatile", "restrict"].foldl dropWord t = bare
  cases bare with
  | nil => rfl
  | cons c bare =>
    cases hstar : "*".toList.isSuffixOf (c :: bare) with
    | false => simp
    | true => cases hupper : isUpper c <;> simp [hupper]

theorem star_mem_of_isObject (h : isObject t = true)
    (hid : ¬ (t = "id".toList || t = "instancetype".toList) = true) : '*' ∈ t := by
  have hbare := foldl_dropWord_prefix ["const", "volatile", "restrict"] t
  unfold isObject at h
  split at h
  · cases h
  dsimp only at h
  split at h
  · cases h
  · simp only [Bool.and_eq_true, isSuffixOf_iff_suffix] at h
    exact hbare.subset (h.1.1.subset (.head _))

theorem readPointer_eq (h : '*' ∈ t) : readPointer t = some (structPointer t) := by
  obtain ⟨front, rest, rfl, hfront⟩ := eq_append_cons_of_mem h
  have hcut := Chars.cut?_append hfront [] rest
  have hplain : ∀ c ∈ front, (c != '*') = true := fun c hc => bne_iff_ne.mpr fun heq => hfront (heq ▸ hc)
  rw [nil_append] at hcut
  unfold readPointer structPointer
  simp only [hcut, Option.bind_eq_bind, Option.bind_some, takeWhile_append_of_pos hplain,
    dropWhile_append_of_pos hplain]
  simp

theorem mapM_eq_some_map {f : α → Option β} {as : List α} (h : ∀ a ∈ as, f a = some (g a)) :
    as.mapM f = some (as.map g) := by
  induction as with
  | nil => rfl
  | cons a as ih =>
    obtain ⟨ha, has⟩ := forall_mem_cons.mp h
    simp [mapM_cons, ha, ih has]

theorem readC_strip (h : ∀ p ∈ partsOf (strip s), part p = some (toC (p.length + 1) p)) :
    readC part (strip s) = some (toC (s.length + 1) s) := by
  have hstrip := length_strip_le s
  have hblock : isBlock (strip s) = (Chars.cut? blockMark (strip s)).isSome := rfl
  rw [partsOf, readBlock] at h
  unfold readC toC
  dsimp only
  rw [readBlock, readObject_eq, hblock]
  cases hcut : Chars.cut? blockMark (strip s) with
  | none =>
    have hpointer : ¬ (strip s = "id".toList || strip s = "instancetype".toList) = true →
        isObject (strip s) = true → readPointer (strip s) = some (structPointer (strip s)) :=
      fun hid hobject => readPointer_eq (star_mem_of_isObject hobject hid)
    simp only [Option.isSome_none, Bool.false_eq_true, if_false, Option.bind_eq_bind, Option.bind_some]
    split_ifs with hid hids hobject
    · rfl
    · rfl
    · exact hpointer hid hobject
    · rfl
  | some cut =>
    have hlength := length_of_cut? hcut
    have hmark : blockMark.length = 3 := rfl
    have htrim := length_trim_le cut.1
    rw [hcut] at h
    simp only [Option.map_some, Option.elim_some] at h
    have hresult : (Chars.trim cut.1).isEmpty = false →
        part (Chars.trim cut.1) = some (toC s.length (Chars.trim cut.1)) := by
      intro hne
      rw [hne] at h
      rw [h _ (.head _), toC_fuel (k := s.length) (Nat.lt_succ_self _) (by omega)]
    have hparams : (blockParams cut.2).mapM part = some ((blockParams cut.2).map (toC s.length)) := by
      refine mapM_eq_some_map fun p hp => ?_
      have := length_le_of_mem_blockParams hp
      rw [h p (by split; exacts [hp, .tail _ hp]), toC_fuel (k := s.length) (Nat.lt_succ_self _) (by omega)]
    simp only [Option.isSome_some, if_true, Option.map_some, Option.bind_eq_bind, Option.bind_some, hparams,
      isEmpty_map]
    cases hne : (Chars.trim cut.1).isEmpty with
    | true => rfl
    | false =>
      rw [hresult hne]
      rfl

theorem length_of_mem_partsOf (h : p ∈ partsOf t) : p.length < t.length := by
  rw [partsOf, readBlock] at h
  cases hcut : Chars.cut? blockMark t with
  | none =>
    rw [hcut] at h
    cases h
  | some cut =>
    have hlength := length_of_cut? hcut
    have hmark : blockMark.length = 3 := rfl
    have htrim := length_trim_le cut.1
    rw [hcut] at h
    dsimp only [Option.map_some, Option.elim_some] at h
    have hp : p = Chars.trim cut.1 ∨ p ∈ blockParams cut.2 := by
      split at h
      · exact .inr h
      · exact mem_cons.mp h
    rcases hp with rfl | hp
    · omega
    · have := length_le_of_mem_blockParams hp
      omega

theorem reads_iff : Reads s r ↔ r = some (toC (s.length + 1) s) := by
  constructor
  · intro h
    induction h with
    | of_parts hu _ ih =>
      cases settles_iff.mp hu
      exact readC_strip ih
  · rintro rfl
    induction hlength : s.length using Nat.strong_induction_on generalizing s with
    | _ n ih =>
      subst hlength
      let part (p : List Char) := some (toC (p.length + 1) p)
      have hread : readC part (strip s) = some (toC (s.length + 1) s) := readC_strip fun p _ => rfl
      rw [← hread]
      refine .of_parts (settles_iff.mpr rfl) fun p hp => ih p.length ?_ rfl
      exact (length_of_mem_partsOf hp).trans_le (length_strip_le s)

def slice? (s : List Char) (i k : Nat) : Option (List Char) :=
  if i ≤ k ∧ k ≤ s.length then some ((s.take k).drop i) else none

/-- Splits `inner` at the commas outside of brackets. The current argument begins at `start`, and from `i` on
the text is still to be read. -/
def readArgumentsFrom (inner : List Char) :
    (depth : Int) → (start i : Nat) → List Char → Option (List (List Char))
  | _, start, _, [] => do return [Chars.trim (← slice? inner start inner.length)]
  | depth, start, i, c :: s =>
    if c = '<' then readArgumentsFrom inner (depth + 1) start (i + 1) s
    else if c = '>' then readArgumentsFrom inner (depth - 1) start (i + 1) s
    else if c = ',' && depth == 0 then do
      let argument ← slice? inner start i
      return Chars.trim argument :: (← readArgumentsFrom inner depth (i + 1) (i + 1) s)
    else readArgumentsFrom inner depth start (i + 1) s

def readArguments (s : List Char) : Option (List (List Char)) :=
  (argumentText? (Chars.trim (eraseQualifiers s))).elim (some []) fun inner =>
    readArgumentsFrom (Chars.trim inner) 0 0 0 (Chars.trim inner)

theorem slice?_append (front part s : List Char) :
    slice? (front ++ (part ++ s)) front.length (front.length + part.length) = some part := by
  rw [slice?, if_pos (by simp), ← append_assoc, ← length_append, take_left, drop_left]

theorem readArgumentsFrom_eq (front part s : List Char) (depth : Int) :
    readArgumentsFrom (front ++ (part.reverse ++ s)) depth front.length (front.length + part.length) s =
      some (splitArguments depth part s) := by
  have hslice := slice?_append front part.reverse s
  rw [length_reverse] at hslice
  induction s generalizing front part depth with
  | nil =>
    rw [append_nil] at hslice
    simp [readArgumentsFrom, splitArguments, hslice]
  | cons c s ih =>
    have hkept := fun depth =>
      ih front (c :: part) depth (by simpa using slice?_append front (c :: part).reverse s)
    have hcut := ih (front ++ (part.reverse ++ [c])) [] depth (slice?_append _ _ _)
    simp only [reverse_cons, append_assoc, singleton_append, length_cons, length_append, length_reverse,
      reverse_nil, nil_append, length_nil, Nat.add_zero, ← Nat.add_assoc] at hkept hcut
    simp only [readArgumentsFrom, splitArguments, hslice, hkept, hcut]
    split_ifs <;> rfl

theorem readArguments_eq (t : SourceType) :
    readArguments t.spelling.toList = some (t.typeArguments.map String.toList) := by
  unfold readArguments SourceType.typeArguments
  cases argumentText? (Chars.trim (eraseQualifiers t.spelling.toList)) with
  | none => rfl
  | some inner =>
    have hread := readArgumentsFrom_eq [] [] (Chars.trim inner) 0
    simpa [Function.comp_def] using hread

def declareAs (block : Bool) (name c : String) : String :=
  if block && has "(*)" c then replaceFirst "(*)" ("(*" ++ name ++ ")") c
  else (cut? "[" c).elim (c ++ " " ++ name) fun cut =>
    if cut.2.isEmpty || c.toList.contains '\n' then c ++ " " ++ name
    else trimRight cut.1 ++ " " ++ name ++ "[" ++ cut.2

theorem declare_eq (t : SourceType) (name : Json) :
    t.declare name = declareAs t.isBlock name.plain t.cType := by
  unfold SourceType.declare declareAs
  dsimp only
  generalize t.cType = c
  split
  · rfl
  · cases Text.cut? "[" c with
    | none => rfl
    | some cut => rfl

end TypeChars

open TypeChars

/-- Every text can be read as a type. The rounds of erasure end, and so does the recursion through block
types; all that is looked up on the way is there. -/
theorem types_read_to_end (raw : String) :
    let t : SourceType := ⟨.text raw⟩
    (∀ u, Settles (eraseQualifiers raw.toList) u ↔ u = eraseGroups (eraseQualifiers raw.toList)) ∧
    (readBlock (strip raw.toList)).isSome = t.isBlock ∧
    readObject (strip raw.toList) = some t.isObject ∧
    (∀ r, Reads raw.toList r ↔ r = some t.cType.toList) ∧
    readArguments raw.toList = some (t.typeArguments.map String.toList) ∧
    ∀ name d, (∃ r, Reads raw.toList r ∧ d = r.map fun c => declareAs t.isBlock name.plain (.ofList c)) ↔
      d = some (t.declare name) := by
  intro t
  have hreads : ∀ r, Reads raw.toList r ↔ r = some t.cType.toList := by
    intro r
    rw [reads_iff, SourceType.cType, String.toList_ofList, String.length_toList]
    rfl
  refine ⟨fun u => settles_iff, ?_, readObject_eq _, hreads, readArguments_eq t, fun name d => ?_⟩
  · rw [readBlock, Option.isSome_map]
    rfl
  · simp only [hreads, exists_eq_left, Option.map_some, String.ofList_toList, declare_eq]

end ObjcLowering
