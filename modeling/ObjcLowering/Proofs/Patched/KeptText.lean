import Mathlib.Data.Nat.Digits.Defs
import ObjcLowering.Output.Files
import ObjcLowering.Proofs.Patched.Rendering

/-! Text that an outline keeps. -/

namespace ObjcLowering.Patched

open Text Output List

def formMarks : List String := ["\x7b\x7b", "\x7b#", "\x7b%"]

def HasNoMark (text : String) : Prop := ∀ mark ∈ formMarks, ¬ mark.toList <:+: text.toList

instance (text : String) : Decidable (HasNoMark text) :=
  inferInstanceAs (Decidable (∀ mark ∈ formMarks, ¬ mark.toList <:+: text.toList))

def Opens (s : List Char) : Prop :=
  ∃ l d r, s = l ++ '\x7b' :: d :: r ∧ (d = '\x7b' ∨ d = '#' ∨ d = '%')

theorem not_opens_iff : ¬ Opens s ↔ OpensNoForm (s.map .char) := by
  rw [OpensNoForm, isChain_map, isChain_iff_forall_rel_of_append_cons_cons]
  constructor
  · intro h a b l r hs
    rw [Bool.eq_false_iff]
    intro hopens
    simp only [Item.opens, Bool.and_eq_true, Bool.or_eq_true, beq_iff_eq, or_assoc] at hopens
    obtain ⟨rfl, hb⟩ := hopens
    exact h ⟨l, b, r, hs, hb⟩
  · rintro h ⟨l, d, r, hs, hd⟩
    have hopens := h hs
    rcases hd with rfl | rfl | rfl <;> cases hopens

theorem hasNoMark_iff : HasNoMark text ↔ ¬ Opens text.toList := by
  have hmark : ∀ d : Char, ['\x7b', d] <:+: text.toList ↔ ∃ l r, text.toList = l ++ '\x7b' :: d :: r := by
    intro d
    constructor
    · rintro ⟨l, r, h⟩
      exact ⟨l, r, by simp [← h]⟩
    · rintro ⟨l, r, h⟩
      exact ⟨l, r, by simp [h]⟩
  have hmarks : HasNoMark text ↔ ∀ d : Char, d = '\x7b' ∨ d = '#' ∨ d = '%' →
      ¬ ['\x7b', d] <:+: text.toList := by
    simp [HasNoMark, formMarks]
  rw [hmarks]
  constructor
  · rintro h ⟨l, d, r, hs, hd⟩
    exact h d hd ((hmark d).mpr ⟨l, r, hs⟩)
  · intro h d hd hin
    obtain ⟨l, r, hs⟩ := (hmark d).mp hin
    exact h ⟨l, d, r, hs, hd⟩

theorem opens_append_left (h : Opens s) : Opens (s ++ r) := by
  obtain ⟨l, d, r', rfl, hd⟩ := h
  exact ⟨l, d, r' ++ r, by simp, hd⟩

theorem opens_append_right (h : Opens s) : Opens (l ++ s) := by
  obtain ⟨l', d, r, rfl, hd⟩ := h
  exact ⟨l ++ l', d, r, by simp, hd⟩

theorem opens_line (h : Opens (a ++ '\n' :: b)) : Opens a ∨ Opens b := by
  obtain ⟨l, d, r, hs, hd⟩ := h
  have hbrace : ('\n' : Char) ≠ '\x7b' := by decide
  have hmark : d ≠ '\n' := by
    rcases hd with rfl | rfl | rfl <;> decide
  rcases append_eq_append_iff.mp hs with ⟨mid, rfl, hmid⟩ | ⟨mid, rfl, hmid⟩
  · cases mid with
    | nil => exact absurd (cons.inj hmid).1 hbrace
    | cons e mid =>
      rw [(cons.inj hmid).2]
      exact .inr ⟨mid, d, r, rfl, hd⟩
  · rcases mid with _ | ⟨e, _ | ⟨e', mid⟩⟩
    · exact absurd (cons.inj hmid).1.symm hbrace
    · exact absurd (cons.inj (cons.inj hmid).2).1 hmark
    · cases hmid
      exact .inl ⟨l, d, mid, rfl, hd⟩

theorem toList_unlines_cons (text : String) (texts : List String) :
    (unlines (text :: texts)).toList = text.toList ++ '\n' :: (unlines texts).toList := by
  simp [unlines, String.join_cons]

theorem opens_unlines_iff : Opens (unlines texts).toList ↔ ∃ text ∈ texts, Opens text.toList := by
  induction texts with
  | nil =>
    constructor
    · rintro ⟨l, d, r, hs, -⟩
      simp [unlines] at hs
    · rintro ⟨text, htext, -⟩
      cases htext
  | cons text texts ih =>
    rw [toList_unlines_cons, exists_mem_cons_iff, ← ih]
    constructor
    · exact opens_line
    · rintro (h | h)
      · exact opens_append_left h
      · exact opens_append_right (opens_append_right (l := ['\n']) h)

theorem unifyNewlines_append_cons (hc : c ≠ '\n') (l r : List Char) :
    Chars.unifyNewlines (l ++ c :: r) = Chars.unifyNewlines l ++ Chars.unifyNewlines (c :: r) := by
  fun_induction Chars.unifyNewlines l with
  | case1 => rfl
  | case2 l ih =>
    rw [cons_append, cons_append, Chars.unifyNewlines, ih]
    rfl
  | case3 d l hnot ih =>
    rw [cons_append, unifyNewlines_cons, ih]
    · rfl
    · intro s' hd hs
      cases l with
      | nil =>
        cases hs
        exact hc rfl
      | cons e l =>
        cases hs
        exact hnot l hd rfl

theorem opens_normalizeLines (h : Opens text.toList) : Opens (normalizeLines text) := by
  obtain ⟨l, d, r, hs, hd⟩ := h
  have hbrace : Chars.unifyNewlines ('\x7b' :: d :: r) = '\x7b' :: d :: Chars.unifyNewlines r := by
    rcases hd with rfl | rfl | rfl <;> simp [Chars.unifyNewlines]
  have hunify : Chars.unifyNewlines text.toList =
      Chars.unifyNewlines l ++ '\x7b' :: d :: Chars.unifyNewlines r := by
    rw [hs, unifyNewlines_append_cons (by decide), hbrace]
  unfold normalizeLines
  dsimp only
  rw [hunify]
  split
  · next hlast =>
    cases hr : Chars.unifyNewlines r with
    | nil =>
      rw [hr] at hlast
      rcases hd with rfl | rfl | rfl <;> simp at hlast
    | cons e r' =>
      refine ⟨Chars.unifyNewlines l, d, (e :: r').dropLast, ?_, hd⟩
      rw [dropLast_append_of_ne_nil (by simp)]
      rfl
  · exact ⟨_, d, _, rfl, hd⟩

theorem foldl_digits_lt {digits : List Char} (h : ∀ d ∈ digits, d.isDigit = true) (n : Nat) :
    digits.foldl (fun n d => n * 10 + (d.toNat - 48)) n < (n + 1) * 10 ^ digits.length := by
  induction digits generalizing n with
  | nil => simp
  | cons d digits ih =>
    have hdigit := toNat_of_isDigit (h d (.head _))
    refine (ih (fun e he => h e (.tail _ he)) _).trans_le ?_
    rw [length_cons, Nat.pow_succ, Nat.mul_comm _ 10, ← Nat.mul_assoc]
    refine Nat.mul_le_mul_right _ ?_
    dsimp only
    omega

theorem length_plainNumber {digits : List Char} (h : plainNumber? digits = some n) :
    (toString n).length ≤ digits.length := by
  unfold plainNumber? at h
  split at h
  · cases h
  next hdigits =>
  split at h
  · cases h
  cases h
  simp only [Bool.or_eq_true, Bool.not_eq_true', not_or, Bool.not_eq_false, List.isEmpty_iff] at hdigits
  have hlt := foldl_digits_lt (all_eq_true.mp hdigits.2) 0
  rw [Nat.zero_add, Nat.one_mul] at hlt
  exact Nat.repr_length _ _ (List.length_pos_iff.mpr hdigits.1) hlt

theorem fillAll_append : fillAll values (ts ++ us) = .ok out ↔
    ∃ a b, fillAll values ts = .ok a ∧ fillAll values us = .ok b ∧ out = a ++ b := by
  simp only [fillAll, mapM_append, bind_eq_ok, pure_eq_ok]
  constructor
  · rintro ⟨_, ⟨as, has, bs, hbs, rfl⟩, rfl⟩
    exact ⟨_, _, ⟨as, has, rfl⟩, ⟨bs, hbs, rfl⟩, String.join_append⟩
  · rintro ⟨_, _, ⟨as, has, rfl⟩, ⟨bs, hbs, rfl⟩, rfl⟩
    exact ⟨_, ⟨as, has, bs, hbs, rfl⟩, String.join_append⟩

theorem fillAll_nil : fillAll values [] = .ok "" := rfl

theorem fillAll_dataToken_eq (back : List Char) :
    fillAll values (dataToken back) = .ok (.ofList back.reverse) := by
  have hdata := fillAll_dataToken values back []
  rw [append_nil, fillAll_nil] at hdata
  rw [hdata]
  simp [bind, Except.bind, pure, Except.pure]

theorem fillAll_singleton : fillAll values [t] = .ok out ↔ fill values t = .ok out := by
  cases h : fill values t <;> simp [fillAll, h, bind, Except.bind, pure, Except.pure, mapM_cons]

theorem length_expression (h : expression? inside = some t)
    (hout : fill {} t = .ok out) : out.length ≤ inside.length := by
  cases t with
  | data body =>
    unfold expression? at h
    dsimp only at h
    split at h
    · cases h
    · split at h
      · split at h <;> cases h
      · cases h
  | value key => cases hout
  | number n =>
    cases hout
    have hnumber : plainNumber? (Chars.trim inside) = some n := by
      unfold expression? at h
      dsimp only at h
      split at h
      · next n' hn =>
        cases h
        exact hn
      · split at h
        · split at h <;> cases h
        · cases h
    exact (length_plainNumber hnumber).trans (length_trim_le inside)

theorem length_rawPart (h : rawPart? s = some (body, rest)) : body.length + rest.length ≤ s.length := by
  simp only [rawPart?, Option.bind_eq_bind, Option.bind_eq_some_iff] at h
  obtain ⟨s₁, h₁, s₂, h₂, ⟨front, s₃⟩, h₃, s₄, h₄, s₅, h₅, hbody⟩ := h
  dsimp only at h₄ hbody
  cases hbody
  have hlengths := And.intro (length_of_after? h₁) (And.intro (length_of_after? h₂)
    (And.intro (length_of_cut? h₃) (And.intro (length_of_after? h₄) (length_of_after? h₅))))
  have := length_trimLeft_le s
  have := length_trimLeft_le s₁
  have := length_trimLeft_le s₃
  have := length_trimLeft_le s₄
  omega

theorem length_form (h : form? s = (true, some (found, rest))) (hout : fillAll {} found = .ok out) :
    out.length + rest.length ≤ s.length := by
  unfold form? at h
  split at h
  · next s =>
    have hsome := (Prod.mk.inj h).2
    simp only [Option.bind_eq_bind, Option.bind_eq_some_iff] at hsome
    obtain ⟨⟨inside, rest'⟩, hcut, t, ht, hfound⟩ := hsome
    dsimp only at ht hfound
    cases hfound
    have hcut := length_of_cut? hcut
    have hin := length_expression ht (fillAll_singleton.mp hout)
    simp only [length_cons]
    omega
  · next s =>
    obtain ⟨⟨inside, rest'⟩, hcut, hfound⟩ := Option.map_eq_some_iff.mp (Prod.mk.inj h).2
    cases hfound
    rw [fillAll_nil] at hout
    cases hout
    have hcut := length_of_cut? hcut
    simp only [length_cons, String.length_empty]
    omega
  · next s =>
    obtain ⟨⟨body, rest'⟩, hraw, hfound⟩ := Option.map_eq_some_iff.mp (Prod.mk.inj h).2
    cases hfound
    cases fillAll_singleton.mp hout
    have hraw := length_rawPart hraw
    simp only [length_cons, String.length_ofList]
    omega
  · cases h

theorem tokensFrom_drop (k : Nat) (back s : List Char) :
    tokensFrom k back s = tokensFrom 0 back (s.drop k) := by
  induction k generalizing s with
  | zero => rfl
  | succ k ih =>
    cases s with
    | nil => rfl
    | cons c s => rw [tokensFrom, drop_succ_cons, ih]

theorem opens_of_cons (h : Opens (c :: s)) (hform : c = '\x7b' → (form? s).1 = false) : Opens s := by
  obtain ⟨l, d, r, hs, hd⟩ := h
  cases l with
  | nil =>
    cases hs
    have hfalse := hform rfl
    rcases hd with rfl | rfl | rfl <;> cases hfalse
  | cons a l =>
    cases hs
    exact ⟨l, d, r, rfl, hd⟩

theorem length_of_tokensFrom (hread : tokensFrom 0 back s = .ok ts) (hout : fillAll {} ts = .ok out) :
    out.length ≤ back.length + s.length ∧ (Opens s → out.length < back.length + s.length) := by
  induction hn : s.length using Nat.strong_induction_on generalizing back s ts out with
  | _ n ih =>
    cases s with
    | nil =>
      rw [tokensFrom] at hread
      cases hread
      rw [fillAll_dataToken_eq] at hout
      cases hout
      refine ⟨by simp, ?_⟩
      rintro ⟨l, d, r, hs, -⟩
      simp at hs
    | cons c s =>
      rw [length_cons] at hn
      subst hn
      -- a character that is read as text goes to the text so far
      have htext : (c = '\x7b' → (form? s).1 = false) → tokensFrom 0 (c :: back) s = .ok ts →
          out.length ≤ back.length + (s.length + 1) ∧
            (Opens (c :: s) → out.length < back.length + (s.length + 1)) := by
        intro hform hrest
        obtain ⟨hle, hlt⟩ := ih s.length (by omega) hrest hout rfl
        rw [length_cons] at hle hlt
        refine ⟨by omega, fun hopens => ?_⟩
        have := hlt (opens_of_cons hopens hform)
        omega
      rw [tokensFrom] at hread
      by_cases hc : c = '\x7b'
      · rw [if_pos hc] at hread
        cases hform : form? s with
        | mk opens result =>
          rw [hform] at hread
          cases opens with
          | false => exact htext (fun _ => by rw [hform]) hread
          | true =>
            cases result with
            | none => cases hread
            | some pair =>
              obtain ⟨found, rest⟩ := pair
              obtain ⟨after, hafter, hts⟩ := bind_eq_ok.mp hread
              cases hts
              obtain ⟨_, last, hfront, hlast, rfl⟩ := fillAll_append.mp hout
              obtain ⟨first, given, hfirst, hgiven, rfl⟩ := fillAll_append.mp hfront
              have hlength := length_form hform hgiven
              rw [tokensFrom_drop] at hafter
              obtain ⟨hle, -⟩ := ih _ (by rw [length_drop]; omega) hafter hlast rfl
              rw [fillAll_dataToken_eq] at hfirst
              cases hfirst
              simp only [String.length_append, String.length_ofList, length_reverse, length_drop,
                length_nil] at hle ⊢
              exact ⟨by omega, fun _ => by omega⟩
      · rw [if_neg hc] at hread
        exact htext (fun h => absurd h hc) hread

theorem not_opens_of_render (h : render text {} = .ok (.ofList (normalizeLines text))) :
    ¬ Opens (normalizeLines text) := by
  intro hopens
  obtain ⟨ts, hread, hout⟩ := bind_eq_ok.mp h
  have hlt := (length_of_tokensFrom hread hout).2 hopens
  simp at hlt

theorem spelled_chars (s : List Char) : spelled (s.map .char) = s := by
  rw [spelled, flatMap_map]
  exact flatMap_singleton' _

theorem map_char_spelled (h : ∀ key, Item.slot key ∉ is) : (spelled is).map .char = is := by
  induction is with
  | nil => rfl
  | cons i is ih =>
    cases i with
    | char c =>
      rw [spelled_cons, map_append, ih fun key hkey => h key (.tail _ hkey)]
      rfl
    | slot key => exact absurd (.head _) (h key)

theorem filled_chars (values : Table String String) (s : List Char) :
    filled values (s.map .char) = .ok (.ofList s) := by
  induction s with
  | nil => rfl
  | cons c s ih =>
    have hcons : filled values ((c :: s).map .char) = do
        let text ← fillItem values (.char c)
        let rest ← filled values (s.map .char)
        return text ++ rest := join_mapM_cons (fillItem values) _ _
    rw [hcons, ih]
    simp [fillItem, bind, Except.bind, pure, Except.pure]

def replacedTypes : List String :=
  ["class_interface", "category_interface"] ++ implementationTypes ++
    ["protocol_declaration", "preproc_include", "function_definition", "declaration"]

theorem outlineTop_of_kept (h : t.type ∉ replacedTypes) :
    outlineTop source t = (t.text source).map keptText := by
  simp only [replacedTypes, implementationTypes, mem_append, mem_cons, not_mem_nil, or_false,
    not_or] at h
  cases htext : t.text source <;> simp [outlineTop, implementationTypes, htext, h] <;> rfl

theorem mapM_outlineTop_of_kept {ts : List Tree} (hkept : ∀ t ∈ ts, t.type ∉ replacedTypes)
    (htexts : ts.mapM (·.text source) = .ok texts) :
    ts.mapM (outlineTop source) = .ok (texts.map keptText) := by
  induction ts generalizing texts with
  | nil =>
    cases htexts
    rfl
  | cons t ts ih =>
    obtain ⟨text, htext, rest, hrest, rfl⟩ := mapM_eq_ok_cons.mp htexts
    refine mapM_eq_ok_cons.mpr ⟨keptText text, ?_, _, ih (fun u hu => hkept u (.tail _ hu)) hrest, rfl⟩
    rw [outlineTop_of_kept (hkept t (.head _)), htext]
    rfl

theorem outline_of_kept (hkept : ∀ t ∈ root.children, t.type ∉ replacedTypes)
    (htexts : root.children.mapM (·.text source) = .ok texts) :
    outline source root = .ok (texts.flatMap keptText) := by
  rw [outline, mapM_outlineTop_of_kept hkept htexts]
  rfl

theorem layout_kept (texts : List String) :
    layout (texts.flatMap keptText) = (unlines texts).toList.map .char := by
  induction texts with
  | nil => rfl
  | cons text texts ih =>
    rw [toList_unlines_cons, flatMap_cons, layout, flatMap_append, ← layout, ← layout, ih]
    simp [keptText, layout, Piece.items]

theorem outlineText_kept (texts : List String) : outlineText (texts.flatMap keptText) = unlines texts := by
  rw [← String.toList_inj, toList_outlineText, layout_kept]
  exact spelled_chars _

theorem render_kept (values : Table String String) (h : ¬ Opens (unlines texts).toList) :
    render (unlines texts) values = .ok (.ofList (normalizeLines (unlines texts))) := by
  have hslots : ∀ key, Piece.slot key ∉ texts.flatMap keptText := by
    intro key hkey
    obtain ⟨text, -, hpiece⟩ := mem_flatMap.mp hkey
    cases mem_singleton.mp hpiece
  have hkeys : ∀ key, Piece.slot key ∈ texts.flatMap keptText → IsKey key :=
    fun key hkey => absurd hkey (hslots key)
  have hforms : OpensNoForm (layout (texts.flatMap keptText)) := by
    rw [layout_kept]
    exact not_opens_iff.mp h
  have hchars : tidy (layout (texts.flatMap keptText)) = (normalizeLines (unlines texts)).map .char := by
    rw [← outlineText_kept, normalizeLines_outlineText hkeys]
    refine (map_char_spelled fun key hkey => ?_).symm
    exact hslots key (slot_mem_layout.mp (slot_mem_tidy.mp hkey))
  rw [← outlineText_kept, render_outlineText values hkeys hforms, hchars, filled_chars, outlineText_kept]

def macroFile (body : String) : String := "/* \x7d\x7d */\n#define ORIGIN " ++ body

def macroTree (body : String) : Tree :=
  .node "translation_unit" 0 (macroFile body).utf8ByteSize
    [.node "comment" 0 8 [] none, .node "preproc_def" 9 (macroFile body).utf8ByteSize [] none] none

end ObjcLowering.Patched
