import ObjcLowering.Proofs.Module.TypeRecovery
import ObjcLowering.Proofs.SourceTypes.Groups

/-! Block types and the function pointers that stand for them. -/

namespace ObjcLowering

open Text List

namespace TypeChars

structure IsSpelt (s : List Char) : Prop where
  ne_nil : s ≠ []
  trimmed : Chars.trim s = s
  plain : ∀ c ∈ s, isAngle c = false
  unqualified : ∀ q ∈ ownershipQualifiers, Chars.replace q.toList [] s = s

structure IsSimple (s : List Char) : Prop extends IsSpelt s where
  simple : ∀ c ∈ s, c ∉ ['(', ')', '^', ',']

def blockText (result : List Char) (params : List (List Char)) : List Char :=
  result ++ ' ' :: (blockMark ++ '(' :: (argumentList params ++ [')']))

def paramList (params : List (List Char)) : List Char :=
  if params.isEmpty then "void".toList else argumentList params

def functionPointer (name result : List Char) (params : List (List Char)) : List Char :=
  result ++ ' ' :: '(' :: '*' :: (name ++ ')' :: '(' :: (paramList params ++ [')']))

def simpleC (s : List Char) : List Char := toC (s.length + 1) s

theorem IsSpelt.strip_eq (h : IsSpelt s) : strip s = s := by
  rw [strip, eraseQualifiers_eq h.unqualified, (Grouped.of_plain h.plain).eraseGroups, h.trimmed]

theorem splitBy_argumentList (h : ∀ q ∈ p :: ps, Chars.trim q = q ∧ ',' ∉ q) (hcomma : ',' ∉ pad)
    (hpad : ∀ s, Chars.trim (pad ++ s) = Chars.trim s) :
    (Chars.splitBy ',' (pad ++ argumentList (p :: ps))).map Chars.trim = p :: ps := by
  induction ps generalizing p pad with
  | nil =>
    obtain ⟨htrim, hp⟩ := h p (.head _)
    have hsplit := (Chars.splitBy_append (s := pad ++ p) (not_mem_append hcomma hp) []).1
    simp [argumentList, joinChars, hsplit, hpad, htrim]
  | cons q ps ih =>
    obtain ⟨htrim, hp⟩ := h p (.head _)
    have hrest : (Chars.splitBy ',' ([' '] ++ argumentList (q :: ps))).map Chars.trim = q :: ps :=
      ih (fun r hr => h r (.tail _ hr)) (by decide) fun _ => rfl
    rw [argumentList_cons, ← append_assoc, (Chars.splitBy_append (by simp [hcomma, hp]) _).2, map_cons,
      hpad, htrim]
    exact congrArg _ hrest

theorem replace_argumentList (hq : q ∈ ownershipQualifiers)
    (h : ∀ p ∈ ps, Chars.replace q.toList [] p = p) :
    Chars.replace q.toList [] (argumentList ps) = argumentList ps := by
  induction ps with
  | nil => exact Chars.replace_nil _ _
  | cons p ps ih =>
    obtain ⟨hp, hps⟩ := forall_mem_cons.mp h
    cases ps with
    | nil => simpa [argumentList, joinChars] using hp
    | cons r ps =>
      have hblank := replace_append_cons hq (c := ' ') (by decide) [] (argumentList (r :: ps))
      rw [argumentList_cons, replace_append_cons hq (by decide), hp]
      rw [nil_append, Chars.replace_nil, ih hps] at hblank
      rw [hblank]
      rfl

theorem mem_blockText (hc : c ∈ blockText result params) :
    c ∈ result ∨ c ∈ [' ', '(', '^', ')', ','] ∨ ∃ p ∈ params, c ∈ p := by
  rw [blockText, mem_append] at hc
  refine hc.imp_right fun hc => ?_
  have hc : c ∈ [' ', '(', '^', ')'] ∨ c ∈ argumentList params := by
    simp [blockMark] at hc ⊢
    tauto
  rcases hc with hc | hc
  · exact .inl (mem_append_left [','] hc)
  · refine (mem_of_mem_joinChars hc).imp_left fun hc => ?_
    simp at hc ⊢
    tauto

theorem isSpelt_blockText (hresult : IsSpelt result) (hparams : ∀ p ∈ params, IsSpelt p) :
    IsSpelt (blockText result params) := by
  obtain ⟨c, rest, rfl⟩ := exists_cons_of_ne_nil hresult.ne_nil
  constructor
  · exact cons_ne_nil _ _
  · have hc := isBlank_of_trim_eq hresult.trimmed
    have hconcat : blockText (c :: rest) params =
        c :: rest ++ ' ' :: (blockMark ++ '(' :: argumentList params) ++ [')'] := by simp [blockText]
    rw [Chars.trim, blockText, cons_append, Chars.trimLeft_cons hc, ← cons_append, ← blockText,
      hconcat, Chars.trimRight_concat (by decide)]
  · intro a ha
    have hmark : ∀ a ∈ [' ', '(', '^', ')', ','], isAngle a = false := Chars.forall_mem (by decide)
    rcases mem_blockText ha with ha | ha | ⟨p, hp, ha⟩
    · exact hresult.plain a ha
    · exact hmark a ha
    · exact (hparams p hp).plain a ha
  · intro q hq
    have hcons : ∀ a, isBreak a = true → ∀ s,
        Chars.replace q.toList [] (a :: s) = a :: Chars.replace q.toList [] s := by
      intro a ha s
      simpa [Chars.replace_nil] using replace_append_cons hq ha [] s
    have hend := replace_append_cons hq (c := ')') (by decide) (argumentList params) []
    rw [blockText, replace_append_cons hq (by decide), hresult.unqualified q hq]
    simp only [blockMark, cons_append, nil_append]
    rw [hcons _ (by decide), hcons _ (by decide), hcons _ (by decide), hcons _ (by decide), hend,
      replace_argumentList hq fun p hp => (hparams p hp).unqualified q hq, Chars.replace_nil]

theorem blockParams_argumentList (hparams : ∀ p ∈ params, IsSpelt p ∧ ',' ∉ p) :
    blockParams ('(' :: (argumentList params ++ [')'])) = params := by
  have htrim : ∀ s : List Char, Chars.trim ('(' :: (s ++ [')'])) = '(' :: (s ++ [')']) := by
    intro s
    rw [Chars.trim, Chars.trimLeft_cons (by decide), ← cons_append, Chars.trimRight_concat (by decide)]
  have hsuffix : ")".toList.isSuffixOf (argumentList params ++ [')']) = true :=
    isSuffixOf_iff_suffix.mpr (suffix_append _ _)
  rw [blockParams, htrim]
  simp only [hsuffix, if_true, dropLast_concat]
  cases params with
  | nil => rfl
  | cons p ps =>
    have hsplit : (Chars.splitBy ',' ([] ++ argumentList (p :: ps))).map Chars.trim = p :: ps :=
      splitBy_argumentList (fun q hq => ⟨(hparams q hq).1.trimmed, (hparams q hq).2⟩) (by decide) fun _ => rfl
    rw [nil_append] at hsplit
    have hne : (Chars.trim (argumentList (p :: ps))).isEmpty = false := by
      have hp := (hparams p (.head _)).1
      obtain ⟨c, rest, rfl⟩ := exists_cons_of_ne_nil hp.ne_nil
      have hc := isBlank_of_trim_eq hp.trimmed
      have hcons : ∃ s, argumentList ((c :: rest) :: ps) = c :: s := by
        cases ps with
        | nil => exact ⟨_, rfl⟩
        | cons q ps => exact ⟨_, argumentList_cons _ q ps⟩
      obtain ⟨s, hs⟩ := hcons
      rw [hs, Chars.trim, Chars.trimLeft_cons hc, Chars.trimRight, Chars.trimRightBy, reverse_cons,
        dropWhile_append]
      split <;> simp_all
    rw [hne, hsplit]
    rfl

theorem cut?_blockText (hresult : IsSimple result) : Chars.cut? blockMark (blockText result params) =
    some (result ++ [' '], '(' :: (argumentList params ++ [')'])) := by
  have hopen : '(' ∉ result ++ [' '] := by
    simpa using fun hmem => hresult.simple _ hmem (.head _)
  simpa [blockText, blockMark] using Chars.cut?_append hopen ['^', ')'] ('(' :: (argumentList params ++ [')']))

theorem toC_blockText (hresult : IsSimple result) (hparams : ∀ p ∈ params, IsSpelt p ∧ ',' ∉ p) :
    toC (fuel + 1) (blockText result params) =
      functionPointer [] (toC fuel result) (params.map (toC fuel)) := by
  have hstrip := (isSpelt_blockText hresult.toIsSpelt fun p hp => (hparams p hp).1).strip_eq
  have htrim : Chars.trim (result ++ [' ']) = result :=
    (Chars.trim_concat (by decide)).trans hresult.trimmed
  rw [toC, hstrip, cut?_blockText hresult]
  simp only [htrim, isEmpty_eq_false_iff.mpr hresult.ne_nil, Bool.false_eq_true, if_false,
    blockParams_argumentList hparams, functionPointer, paramList, isEmpty_map]
  simp [argumentList]

end TypeChars

open TypeChars

inductive ParamType
  | simple (s : List Char)
  | thunk (result : List Char)
  | block (result : List Char) (param : ParamType)

namespace ParamType

def text : ParamType → List Char
  | simple s => s
  | thunk result => blockText result []
  | block result param => blockText result [param.text]

def target : ParamType → List Char
  | simple s => simpleC s
  | thunk result => functionPointer [] (simpleC result) []
  | block result param => functionPointer [] (simpleC result) [param.target]

def Spelt : ParamType → Prop
  | simple s => IsSimple s
  | thunk result => IsSimple result
  | block result param => IsSimple result ∧ param.Spelt

theorem isSpelt_text (h : Spelt p) : IsSpelt p.text ∧ ',' ∉ p.text := by
  induction p with
  | simple s => exact ⟨h.toIsSpelt, fun hmem => h.simple _ hmem (by decide)⟩
  | thunk result =>
    have hcomma : ',' ∉ result := fun hmem => h.simple _ hmem (by decide)
    refine ⟨isSpelt_blockText h.toIsSpelt (forall_mem_nil _), ?_⟩
    simp [text, blockText, blockMark, argumentList, joinChars, intercalate, hcomma]
  | block result param ih =>
    obtain ⟨hresult, hparam⟩ := h
    have hcomma : ',' ∉ result := fun hmem => hresult.simple _ hmem (by decide)
    refine ⟨isSpelt_blockText hresult.toIsSpelt (by simpa using (ih hparam).1), ?_⟩
    simp [text, blockText, blockMark, argumentList, joinChars, hcomma, (ih hparam).2]

theorem toC_text (h : Spelt p) (hfuel : p.text.length < fuel) : toC fuel p.text = p.target := by
  induction p generalizing fuel with
  | simple s => exact toC_fuel hfuel (Nat.lt_succ_self _)
  | thunk result =>
    cases fuel with
    | zero => exact absurd hfuel (Nat.not_lt_zero _)
    | succ fuel =>
      have hlength : result.length < fuel := by
        simp [text, blockText] at hfuel
        omega
      rw [text, toC_blockText h (forall_mem_nil _), toC_fuel hlength (Nat.lt_succ_self _)]
      rfl
  | block result param ih =>
    cases fuel with
    | zero => exact absurd hfuel (Nat.not_lt_zero _)
    | succ fuel =>
      obtain ⟨hresult, hparam⟩ := h
      have hlength : result.length < fuel ∧ param.text.length < fuel := by
        simp [text, blockText, argumentList, joinChars] at hfuel
        omega
      rw [text, toC_blockText hresult (by simpa using isSpelt_text hparam),
        toC_fuel hlength.1 (Nat.lt_succ_self _), map_singleton, ih hparam hlength.2]
      rfl

theorem exists_fuel (params : List ParamType) (n : Nat) :
    ∃ fuel, n < fuel ∧ ∀ p ∈ params, p.text.length < fuel := by
  induction params with
  | nil => exact ⟨n + 1, n.lt_succ_self, forall_mem_nil _⟩
  | cons p params ih =>
    obtain ⟨fuel, hn, hparams⟩ := ih
    refine ⟨max fuel (p.text.length + 1), by omega, forall_mem_cons.mpr ⟨by omega, fun q hq => ?_⟩⟩
    have := hparams q hq
    omega

end ParamType

/-- A text with as many closing as opening parentheses, each one after its opening one. -/
inductive Balanced : List Char → Prop
  | nil : Balanced []
  | char : c ∉ ['(', ')'] → Balanced s → Balanced (c :: s)
  | group : Balanced inside → Balanced s → Balanced ('(' :: inside ++ ')' :: s)

namespace Balanced

theorem append (h : Balanced s) (h' : Balanced s') : Balanced (s ++ s') := by
  induction h with
  | nil => exact h'
  | char hc _ ih => exact .char hc ih
  | group hinner _ _ ih => simpa using .group hinner ih

theorem of_simple (h : ∀ c ∈ s, c ∉ ['(', ')']) : Balanced s := by
  induction s with
  | nil => exact .nil
  | cons c s ih =>
    obtain ⟨hc, hs⟩ := forall_mem_cons.mp h
    exact .char hc (ih hs)

theorem functionPointer (hresult : Balanced result) (hparams : ∀ p ∈ params, Balanced p) :
    Balanced (functionPointer [] result params) := by
  have hlist : Balanced (argumentList params) := by
    induction params with
    | nil => exact .nil
    | cons p ps ih =>
      obtain ⟨hp, hps⟩ := forall_mem_cons.mp hparams
      cases ps with
      | nil => simpa [argumentList, joinChars] using hp
      | cons q ps =>
        rw [argumentList_cons]
        exact hp.append (.char (by decide) (.char (by decide) (ih hps)))
  have hinside : Balanced (paramList params) := by
    unfold paramList
    split
    · exact .of_simple (Chars.forall_mem (by decide))
    · exact hlist
  have hstar : Balanced ['*'] := .char (by decide) .nil
  have hmark := Balanced.group hstar (.group hinside .nil)
  simpa [TypeChars.functionPointer] using hresult.append (.char (c := ' ') (by decide) hmark)

end Balanced

theorem mem_structPointer (hc : c ∈ structPointer s) : c ∈ "struct ".toList ++ " *".toList ∨ c ∈ s := by
  have htrim : ∀ s : List Char, c ∈ Chars.trim s → c ∈ s := fun s hc =>
    (dropWhile_suffix _).subset ((Chars.trimRightBy_prefix _ _).subset hc)
  unfold structPointer at hc
  rcases mem_append.mp hc with hc | hc
  · rcases mem_append.mp hc with hc | hc
    · rcases mem_append.mp hc with hc | hc
      · exact .inl (mem_append_left _ hc)
      · exact .inr (( takeWhile_prefix _).subset ((Chars.trimRightBy_prefix _ _).subset hc))
    · exact .inl (mem_append_right _ hc)
  · exact .inr ((dropWhile_suffix _).subset (mem_of_mem_drop (htrim _ hc)))

theorem simpleC_simple (h : IsSimple s) : ∀ c ∈ simpleC s, c ∉ ['(', ')'] := by
  have hs : ∀ c ∈ s, c ∉ ['(', ')'] := by
    intro c hc hmem
    exact h.simple c hc (mem_append_left ['^', ','] hmem)
  have hopen : '(' ∉ s := fun hmem => hs _ hmem (.head _)
  have hobject : ∀ c ∈ "struct OZObject **".toList, c ∉ ['(', ')'] := Chars.forall_mem (by decide)
  have hstruct : ∀ c ∈ "struct ".toList ++ " *".toList, c ∉ ['(', ')'] := Chars.forall_mem (by decide)
  have hprefix : "struct OZObject *".toList <+: "struct OZObject **".toList := by decide
  intro c hc
  rw [simpleC, toC, h.strip_eq, Chars.cut?_of_not_mem (by decide) hopen] at hc
  dsimp only at hc
  split at hc
  · exact hobject c ( hprefix.subset hc)
  split at hc
  · exact hobject c hc
  split at hc
  · exact (mem_structPointer hc).elim (hstruct c) (hs c)
  · exact hs c hc

theorem balanced_target {p : ParamType} (h : p.Spelt) : Balanced p.target := by
  induction p with
  | simple s => exact .of_simple (simpleC_simple h)
  | thunk result => exact .functionPointer (.of_simple (simpleC_simple h)) (forall_mem_nil _)
  | block result param ih =>
    exact .functionPointer (.of_simple (simpleC_simple h.1)) (by simpa using ih h.2)

theorem declare_functionPointer {t : SourceType} (hblock : t.isBlock = true)
    (hC : t.cType = .ofList (functionPointer [] result params)) (hresult : '(' ∉ result) (name : Json) :
    t.declare name = .ofList (functionPointer name.plain.toList result params) := by
  have hcut : Text.cut? "(*)" t.cType =
      some (.ofList (result ++ [' ']), .ofList ('(' :: (paramList params ++ [')']))) := by
    have hopen : '(' ∉ result ++ [' '] := by simpa using hresult
    have hmark : Chars.cut? "(*)".toList t.cType.toList =
        some (result ++ [' '], '(' :: (paramList params ++ [')'])) := by
      have htext : functionPointer [] result params =
          result ++ [' '] ++ '(' :: (['*', ')'] ++ '(' :: (paramList params ++ [')'])) := by
        simp [functionPointer]
      rw [hC, htext]
      exact (congrArg _ String.toList_ofList).trans (Chars.cut?_append hopen _ _)
    rw [Text.cut?, hmark]
    rfl
  have hhas : Text.has "(*)" t.cType = true := by
    rw [Text.cut?, Option.map_eq_some_iff] at hcut
    obtain ⟨_, hcut, _⟩ := hcut
    rw [Text.has, Chars.has, hcut]
    rfl
  refine String.toList_injective ?_
  simp [SourceType.declare, hblock, hhas, Text.replaceFirst, hcut, functionPointer]

/-- Block types are translated part by part, to any depth, where no result is a block type and only the
outermost list of parameters has commas. The name that is declared stands in the outermost pointer. -/
theorem block_type_composed {params : List ParamType} (hresult : IsSimple result)
    (hparams : ∀ p ∈ params, p.Spelt)
    (hspelling : SourceType.stripped t = .ofList (blockText result (params.map (·.text)))) (name : Json) :
    t.cType = .ofList (functionPointer [] (simpleC result) (params.map (·.target))) ∧
      Balanced t.cType.toList ∧
      t.declare name =
        .ofList (functionPointer name.plain.toList (simpleC result) (params.map (·.target))) := by
  have hspelt : IsSpelt (blockText result (params.map (·.text))) := isSpelt_blockText hresult.toIsSpelt
    (forall_mem_map.mpr fun p hp => (ParamType.isSpelt_text (hparams p hp)).1)
  have hstrip : strip t.spelling.toList = blockText result (params.map (·.text)) :=
    String.ofList_injective hspelling
  have hC : t.cType = .ofList (functionPointer [] (simpleC result) (params.map (·.target))) := by
    have htext : strip t.spelling.toList = strip (blockText result (params.map (·.text))) :=
      hstrip.trans hspelt.strip_eq.symm
    obtain ⟨fuel, hlength, hparts⟩ := ParamType.exists_fuel params (t.spelling.length + result.length)
    have hfuel : toC (t.spelling.length + 1) t.spelling.toList = toC (fuel + 1) t.spelling.toList := by
      refine toC_fuel ?_ ?_ <;> rw [String.length_toList] <;> omega
    have htargets : (params.map (·.text)).map (toC fuel) = params.map (·.target) := by
      rw [map_map]
      exact map_congr_left fun p hp => ParamType.toC_text (hparams p hp) (hparts p hp)
    rw [SourceType.cType, hfuel, toC_congr htext, toC_blockText hresult, htargets,
      toC_fuel (by omega) (Nat.lt_succ_self _)]
    · rfl
    · exact forall_mem_map.mpr fun p hp => ParamType.isSpelt_text (hparams p hp)
  refine ⟨hC, ?_, ?_⟩
  · rw [hC, String.toList_ofList]
    exact .functionPointer (.of_simple (simpleC_simple hresult))
      (forall_mem_map.mpr fun p hp => balanced_target (hparams p hp))
  · have hblock : t.isBlock = true := by
      rw [SourceType.isBlock, hstrip, isBlock, Chars.has, cut?_blockText hresult]
      rfl
    exact declare_functionPointer hblock hC (fun hmem => simpleC_simple hresult _ hmem (.head _)) name

theorem nested_handler_composed :
    let t : SourceType := ⟨.text "void (^)(id, void (^)(int (^)(char)), BOOL *)"⟩
    t.cType = "void (*)(struct OZObject *, void (*)(int (*)(char)), BOOL *)" ∧
      t.declare (.text "done") = "void (*done)(struct OZObject *, void (*)(int (*)(char)), BOOL *)" := by
  have hvoid : IsSimple "void".toList := ⟨⟨by decide, by decide, Chars.forall_mem (by decide), by decide⟩, Chars.forall_mem (by decide)⟩
  have hint : IsSimple "int".toList := ⟨⟨by decide, by decide, Chars.forall_mem (by decide), by decide⟩, Chars.forall_mem (by decide)⟩
  have hchar : IsSimple "char".toList := ⟨⟨by decide, by decide, Chars.forall_mem (by decide), by decide⟩, Chars.forall_mem (by decide)⟩
  have hid : IsSimple "id".toList := ⟨⟨by decide, by decide, Chars.forall_mem (by decide), by decide⟩, Chars.forall_mem (by decide)⟩
  have hbool : IsSimple "BOOL *".toList := ⟨⟨by decide, by decide, Chars.forall_mem (by decide), by decide⟩, Chars.forall_mem (by decide)⟩
  have hparams : ∀ p ∈ [ParamType.simple "id".toList,
      .block "void".toList (.block "int".toList (.simple "char".toList)), .simple "BOOL *".toList],
      p.Spelt := by
    simp only [forall_mem_cons]
    exact ⟨hid, ⟨hvoid, hint, hchar⟩, hbool, forall_mem_nil _⟩
  have hcomposed := block_type_composed (t := ⟨.text "void (^)(id, void (^)(int (^)(char)), BOOL *)"⟩) hvoid
    hparams (by decide +kernel) (.text "done")
  exact ⟨hcomposed.1.trans (by decide +kernel), hcomposed.2.2.trans (by decide +kernel)⟩

theorem inner_comma_splits_block :
    (SourceType.mk (.text "void (^)(void (^)(int, char))")).cType = "void (*)(void (*)(void), char))" ∧
      (SourceType.mk (.text "void (^)(void) (^)(int)")).cType = "void (*)(void) (*)(void))" := by
  decide +kernel

end ObjcLowering
