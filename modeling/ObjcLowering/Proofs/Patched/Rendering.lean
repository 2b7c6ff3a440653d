import Mathlib.Data.List.Chain
import ObjcLowering.Patched.Render
import ObjcLowering.Patched.Template
import ObjcLowering.Proofs.Nodes
import ObjcLowering.Proofs.Tables
import ObjcLowering.Proofs.Texts

/-! Rendering an outline. -/

namespace ObjcLowering.Patched

open Text List

inductive Item
  | char (c : Char)
  | slot (key : String)
  deriving DecidableEq, Repr

def Item.chars : Item → List Char
  | char c => [c]
  | slot key => '\x7b' :: '\x7b' :: ' ' :: (key.toList ++ [' ', '\x7d', '\x7d'])

def Piece.items : Piece → List Item
  | text s => s.toList.map .char
  | slot key => [.slot key]

def layout (ps : List Piece) : List Item := ps.flatMap Piece.items

def spelled (is : List Item) : List Char := is.flatMap Item.chars

theorem toList_outlineText (ps : List Piece) : (outlineText ps).toList = spelled (layout ps) := by
  have hpiece : ∀ p : Piece, p.toText.toList = spelled p.items := by
    intro p
    cases p with
    | text s =>
      rw [spelled, Piece.items, flatMap_map]
      exact (flatMap_singleton' _).symm
    | slot key => simp [Piece.toText, Piece.items, spelled, Item.chars]
  rw [outlineText, String.toList_join, flatMap_map, spelled, layout, flatMap_assoc]
  exact flatMap_congr fun p _ => hpiece p

def Piece.key? : Piece → Option String
  | text _ => none
  | slot key => some key

def Item.key? : Item → Option String
  | char _ => none
  | slot key => some key

def slots (ps : List Piece) : List String := ps.filterMap Piece.key?

def slotsIn (is : List Item) : List String := is.filterMap Item.key?

@[simp] theorem slotsIn_char (c : Char) (is : List Item) : slotsIn (.char c :: is) = slotsIn is := rfl

@[simp] theorem slotsIn_slot (key : String) (is : List Item) :
    slotsIn (.slot key :: is) = key :: slotsIn is := rfl

theorem mem_slots : key ∈ slots ps ↔ Piece.slot key ∈ ps := by
  rw [slots, mem_filterMap]
  constructor
  · rintro ⟨p, hp, hkey⟩
    cases p with
    | text s => cases hkey
    | slot other =>
      cases hkey
      exact hp
  · intro hp
    exact ⟨_, hp, rfl⟩

theorem mem_slotsIn : key ∈ slotsIn is ↔ Item.slot key ∈ is := by
  rw [slotsIn, mem_filterMap]
  constructor
  · rintro ⟨i, hi, hkey⟩
    cases i with
    | char c => cases hkey
    | slot other =>
      cases hkey
      exact hi
  · intro hi
    exact ⟨_, hi, rfl⟩

theorem slotsIn_layout (ps : List Piece) : slotsIn (layout ps) = slots ps := by
  induction ps with
  | nil => rfl
  | cons p ps ih =>
    have hpiece : slotsIn p.items = p.key?.toList := by
      cases p with
      | text s => simp [slotsIn, Piece.items, Piece.key?, Item.key?]
      | slot key => rfl
    have hcons : slotsIn (layout (p :: ps)) = slotsIn p.items ++ slotsIn (layout ps) :=
      filterMap_append
    rw [hcons, hpiece, ih]
    cases p <;> rfl

theorem slot_mem_layout : Item.slot key ∈ layout ps ↔ Piece.slot key ∈ ps := by
  rw [← mem_slotsIn, slotsIn_layout, mem_slots]

def keyChars : List Char := "_nimpl0123456789".toList

def IsKey (key : String) : Prop := ∃ s, key.toList = '_' :: s ∧ ∀ c ∈ s, c ∈ keyChars

theorem keyChars_plain : ∀ c ∈ keyChars, isWord c = true ∧ isBlank c = false ∧ c ≠ '\x7d' ∧ c ≠ '\r' :=
  all_iff_forall_prop.mp (by decide)

theorem IsKey.mem_keyChars (h : IsKey key) (hc : c ∈ key.toList) : c ∈ keyChars := by
  obtain ⟨s, hs, hall⟩ := h
  rw [hs] at hc
  rcases mem_cons.mp hc with rfl | hc
  · decide
  · exact hall c hc

theorem digit_mem_keyChars (h : c.isDigit = true) : c ∈ keyChars := by
  have hbounds := toNat_of_isDigit h
  have hall : ∀ n : Fin 58, 48 ≤ n.val → Char.ofNat n.val ∈ keyChars := by decide
  have hc := hall ⟨c.toNat, by omega⟩ hbounds.1
  rwa [Char.ofNat_toNat] at hc

theorem toString_subset_keyChars (n : Nat) : (toString n).toList ⊆ keyChars :=
  fun _ hc => digit_mem_keyChars (isDigit_of_mem_toString hc)

theorem isKey_placeKey (hstem : stem.toList = '_' :: s)
    (hs : s ⊆ keyChars) (source : String) (t : Tree) : IsKey (placeKey stem source t) := by
  have hlow : "_".toList ⊆ keyChars := by decide
  refine ⟨s ++ (toString ((pointAt source t.start).1 + 1)).toList ++ "_".toList ++
    (toString ((pointAt source t.start).2 + 1)).toList, ?_, ?_⟩
  · simp [placeKey, String.toList_append, hstem]
  · exact append_subset.mpr ⟨append_subset.mpr ⟨append_subset.mpr
      ⟨hs, toString_subset_keyChars _⟩, hlow⟩, toString_subset_keyChars _⟩

theorem isKey_codeKey (source : String) (t : Tree) : IsKey (codeKey source t) :=
  isKey_placeKey (s := ['n', '_']) (by decide) (by decide) source t

theorem isKey_preambleKey (source : String) (t : Tree) : IsKey (preambleKey source t) :=
  isKey_placeKey (s := ['i', 'm', 'p', 'l', '_']) (by decide) (by decide) source t

theorem expression?_key (h : IsKey key) : expression? (' ' :: (key.toList ++ [' '])) = some (.value key) := by
  have hplain := fun c hc => keyChars_plain c (h.mem_keyChars hc)
  have htrim : Chars.trim (' ' :: (key.toList ++ [' '])) = key.toList := by
    rw [← cons_append, Chars.trim_concat (by decide), ← singleton_append,
      Chars.trim_append_left (Chars.forall_mem (by decide)), Chars.trim_of_forall fun c hc => (hplain c hc).2.1]
  have hword : key.toList.all isWord = true := all_eq_true.mpr fun c hc => (hplain c hc).1
  obtain ⟨s, hs, -⟩ := h
  unfold expression?
  rw [htrim]
  have hnumber : plainNumber? key.toList = none := by
    rw [hs]
    simp [plainNumber?, show Char.isDigit '_' = false from rfl]
  simp only [hnumber]
  rw [hs] at hword ⊢
  have hlow : (digitValue? '_').isNone = true := by decide
  simp only [hword, hlow, Bool.and_self, if_true]
  rw [← hs, String.ofList_toList]

theorem form?_slot (h : IsKey key) (rest : List Char) :
    form? ('\x7b' :: ' ' :: (key.toList ++ [' ', '\x7d', '\x7d']) ++ rest) =
      (true, some ([.value key], rest)) := by
  have hinside : '\x7d' ∉ ' ' :: (key.toList ++ [' ']) := by
    have hkey : '\x7d' ∉ key.toList := fun hc => (keyChars_plain _ (h.mem_keyChars hc)).2.2.1 rfl
    simp [hkey]
  have hshape : ' ' :: (key.toList ++ [' ', '\x7d', '\x7d']) ++ rest =
      ' ' :: (key.toList ++ [' ']) ++ '\x7d' :: (['\x7d'] ++ rest) := by simp
  rw [cons_append, form?, hshape, Chars.cut?_append hinside]
  simp [expression?_key h]

def Item.opens : Item → Item → Bool
  | char c, char d => c == '\x7b' && (d == '\x7b' || d == '#' || d == '%')
  | char c, slot _ => c == '\x7b'
  | slot _, _ => false

def OpensNoForm (is : List Item) : Prop := is.IsChain fun a b => a.opens b = false

instance (is : List Item) : Decidable (OpensNoForm is) :=
  inferInstanceAs (Decidable (is.IsChain fun a b => a.opens b = false))

def tokensOf : (back : List Char) → List Item → List Token
  | back, [] => dataToken back
  | back, .char c :: is => tokensOf (c :: back) is
  | back, .slot key :: is => dataToken back ++ .value key :: tokensOf [] is

theorem tokensFrom_skip (xs s back : List Char) :
    tokensFrom xs.length back (xs ++ s) = tokensFrom 0 back s := by
  induction xs with
  | nil => rfl
  | cons x xs ih => rw [length_cons, cons_append, tokensFrom, ih]

theorem tokensFrom_char (h : OpensNoForm (.char c :: is)) :
    tokensFrom 0 back (c :: spelled is) = tokensFrom 0 (c :: back) (spelled is) := by
  rw [tokensFrom]
  split
  · next hc =>
    subst hc
    have hform : form? (spelled is) = (false, none) := by
      cases is with
      | nil => rfl
      | cons i is =>
        have hopens := (isChain_cons_cons.mp h).1
        cases i with
        | slot key => cases hopens
        | char d =>
          simp only [Item.opens, beq_self_eq_true, Bool.true_and, Bool.or_eq_false_iff,
            beq_eq_false_iff_ne, ne_eq] at hopens
          obtain ⟨⟨hbrace, hhash⟩, hpercent⟩ := hopens
          simp [spelled, Item.chars, form?, hbrace, hhash, hpercent]
    rw [hform]
  · rfl

theorem tokensFrom_spelled (back : List Char) (hkeys : ∀ key, Item.slot key ∈ is → IsKey key)
    (hforms : OpensNoForm is) : tokensFrom 0 back (spelled is) = .ok (tokensOf back is) := by
  induction is generalizing back with
  | nil => rw [spelled, flatMap_nil, tokensFrom, tokensOf]
  | cons i is ih =>
    have hrest := fun back => ih back (fun key hkey => hkeys key (.tail _ hkey)) hforms.tail
    cases i with
    | char c =>
      rw [tokensOf, ← hrest]
      exact tokensFrom_char hforms
    | slot key =>
      let inside := '\x7b' :: ' ' :: (key.toList ++ [' ', '\x7d', '\x7d'])
      have hform := form?_slot (hkeys key (.head _)) (spelled is)
      have hlength : (inside ++ spelled is).length - (spelled is).length = inside.length := by
        rw [length_append, Nat.add_sub_cancel]
      have hchars : spelled (.slot key :: is) = '\x7b' :: (inside ++ spelled is) := rfl
      rw [hchars, tokensFrom, if_pos rfl, hform]
      dsimp only
      rw [hlength, tokensFrom_skip, hrest]
      simp [tokensOf, bind, Except.bind, pure, Except.pure]

def unifyItems : List Item → List Item
  | [] => []
  | .char '\r' :: .char '\n' :: is => .char '\n' :: unifyItems is
  | .char c :: is => .char (if c = '\r' then '\n' else c) :: unifyItems is
  | .slot key :: is => .slot key :: unifyItems is

def tidy (is : List Item) : List Item :=
  let is := unifyItems is
  if is.getLast? = some (.char '\n') then is.dropLast else is

theorem slotsIn_unifyItems (is : List Item) : slotsIn (unifyItems is) = slotsIn is := by
  fun_induction unifyItems is <;> simp_all

theorem slotsIn_tidy (is : List Item) : slotsIn (tidy is) = slotsIn is := by
  rw [← slotsIn_unifyItems is]
  unfold tidy
  dsimp only
  split
  · next hlast =>
    conv_rhs => rw [← dropLast_append_getLast? _ hlast]
    simp [slotsIn, Item.key?]
  · rfl

theorem slot_mem_tidy : Item.slot key ∈ tidy is ↔ Item.slot key ∈ is := by
  rw [← mem_slotsIn, slotsIn_tidy, mem_slotsIn]

theorem unifyNewlines_append (h : ∀ c ∈ xs, c ≠ '\r') (ys : List Char) :
    Chars.unifyNewlines (xs ++ ys) = xs ++ Chars.unifyNewlines ys := by
  induction xs with
  | nil => rfl
  | cons c xs ih =>
    have hc := h c (.head _)
    rw [cons_append, Chars.unifyNewlines, ih fun d hd => h d (.tail _ hd), if_neg hc]
    · rfl
    · intro _ heq
      exact absurd heq hc

theorem slotChars_ne_return (h : IsKey key) : ∀ c ∈ (Item.slot key).chars, c ≠ '\r' := by
  intro c hc
  simp only [Item.chars, mem_cons, mem_append, not_mem_nil, or_false] at hc
  rcases hc with rfl | rfl | rfl | hc | rfl | rfl | rfl
  case inr.inr.inr.inl => exact (keyChars_plain c (h.mem_keyChars hc)).2.2.2
  all_goals decide

theorem spelled_cons (i : Item) (is : List Item) : spelled (i :: is) = i.chars ++ spelled is := rfl

theorem head_spelled_ne_feed (h : ∀ is', is ≠ .char '\n' :: is') (s : List Char) :
    spelled is ≠ '\n' :: s := by
  cases is with
  | nil =>
    intro hs
    cases hs
  | cons i is =>
    cases i with
    | char c =>
      intro hs
      cases hs
      exact h is rfl
    | slot key =>
      intro hs
      cases hs

theorem unifyNewlines_cons (h : ∀ s', c = '\r' → s ≠ '\n' :: s') :
    Chars.unifyNewlines (c :: s) = (if c = '\r' then '\n' else c) :: Chars.unifyNewlines s := by
  rw [Chars.unifyNewlines]
  exact fun s' hc hs => h s' hc hs

theorem spelled_unifyItems (hkeys : ∀ key, Item.slot key ∈ is → IsKey key) :
    spelled (unifyItems is) = Chars.unifyNewlines (spelled is) := by
  fun_induction unifyItems is with
  | case1 => rfl
  | case2 is ih =>
    rw [spelled_cons, ih fun key hkey => hkeys key (.tail _ (.tail _ hkey))]
    rfl
  | case3 c is hnot ih =>
    rw [spelled_cons, ih fun key hkey => hkeys key (.tail _ hkey)]
    refine (unifyNewlines_cons fun s hc => head_spelled_ne_feed (fun is' his => ?_) s).symm
    exact hnot is' his hc
  | case4 key is ih =>
    rw [spelled_cons, spelled_cons, ih fun other hother => hkeys other (.tail _ hother),
      unifyNewlines_append (slotChars_ne_return (hkeys key (.head _)))]

theorem getLast?_spelled (is : List Item) :
    (spelled is).getLast? = some '\n' ↔ is.getLast? = some (.char '\n') := by
  rcases eq_nil_or_concat is with rfl | ⟨front, last, rfl⟩
  · simp [spelled]
  · cases last with
    | char c => simp [spelled, Item.chars]
    | slot key =>
      have hchars : spelled (front.concat (.slot key)) =
          spelled front ++ '\x7b' :: '\x7b' :: ' ' :: (key.toList ++ [' ', '\x7d']) ++ ['\x7d'] := by
        simp [spelled, Item.chars]
      rw [hchars, getLast?_concat]
      simp

theorem spelled_dropLast (h : is.getLast? = some (.char '\n')) :
    spelled is.dropLast = (spelled is).dropLast := by
  have hsplit := dropLast_append_getLast? _ h
  have hspelled : spelled is = spelled is.dropLast ++ ['\n'] := by
    conv_lhs => rw [← hsplit]
    simp [spelled, Item.chars]
  rw [hspelled, dropLast_concat]

theorem normalizeLines_outlineText (hkeys : ∀ key, Piece.slot key ∈ ps → IsKey key) :
    normalizeLines (outlineText ps) = spelled (tidy (layout ps)) := by
  have hunify := spelled_unifyItems fun key hkey => hkeys key (slot_mem_layout.mp hkey)
  unfold normalizeLines tidy
  dsimp only
  rw [toList_outlineText, ← hunify]
  by_cases hlast : (unifyItems (layout ps)).getLast? = some (.char '\n')
  · have hchars := (getLast?_spelled _).mpr hlast
    rw [if_pos hlast, if_pos (by simp [hchars]), spelled_dropLast hlast]
  · have hchars := mt (getLast?_spelled _).mp hlast
    rw [if_neg hlast, if_neg (by simpa using hchars)]

theorem opens_head_unifyItems {a : Item} (h : ∀ b ∈ is.head?, a.opens b = false) :
    ∀ b ∈ (unifyItems is).head?, a.opens b = false := by
  have hfeed : a.opens (.char '\n') = false := by
    cases a <;> simp [Item.opens]
  fun_cases unifyItems is with
  | case1 => exact h
  | case2 is =>
    rintro b ⟨⟩
    exact hfeed
  | case3 c is hnot =>
    rintro b ⟨⟩
    split
    · exact hfeed
    · exact h _ rfl
  | case4 key is => exact h

theorem OpensNoForm.unifyItems (h : OpensNoForm is) : OpensNoForm (unifyItems is) := by
  have hfeed : ∀ b : Item, (Item.char '\n').opens b = false := by
    intro b
    cases b <;> rfl
  fun_induction Patched.unifyItems is with
  | case1 => exact h
  | case2 is ih => exact isChain_cons.mpr ⟨fun b _ => hfeed b, ih h.tail.tail⟩
  | case3 c is hnot ih =>
    refine isChain_cons.mpr ⟨?_, ih h.tail⟩
    split
    · exact fun b _ => hfeed b
    · exact opens_head_unifyItems (isChain_cons.mp h).1
  | case4 key is ih => exact isChain_cons.mpr ⟨fun b _ => rfl, ih h.tail⟩

theorem OpensNoForm.tidy (h : OpensNoForm is) : OpensNoForm (tidy is) := by
  unfold Patched.tidy
  dsimp only
  split
  · exact h.unifyItems.dropLast
  · exact h.unifyItems

def fillItem (values : Table String String) : Item → Except Fault String
  | .char c => .ok (String.singleton c)
  | .slot key => fill values (.value key)

def filled (values : Table String String) (is : List Item) : Except Fault String :=
  return String.join (← is.mapM (fillItem values))

def fillAll (values : Table String String) (ts : List Token) : Except Fault String :=
  return String.join (← ts.mapM (fill values))

theorem join_mapM_cons (f : α → Except Fault String) (x : α) (xs : List α) :
    (do return String.join (← (x :: xs).mapM f) : Except Fault String) = do
      let text ← f x
      let rest ← (do return String.join (← xs.mapM f))
      return text ++ rest := by
  rw [mapM_cons]
  cases f x with
  | error fault => rfl
  | ok text =>
    cases xs.mapM f with
    | error fault => rfl
    | ok rest => simp [bind, Except.bind, pure, Except.pure, String.join_cons]

theorem fillAll_dataToken (values : Table String String) (back : List Char) (ts : List Token) :
    fillAll values (dataToken back ++ ts) = do
      let rest ← fillAll values ts
      return String.ofList back.reverse ++ rest := by
  cases back with
  | nil =>
    rw [dataToken, isEmpty_nil, if_pos rfl, nil_append]
    cases fillAll values ts with
    | error fault => rfl
    | ok rest => simp [bind, Except.bind, pure, Except.pure]
  | cons c back => exact join_mapM_cons (fill values) _ ts

theorem fillAll_tokensOf (values : Table String String) (back : List Char) (is : List Item) :
    fillAll values (tokensOf back is) = do
      let rest ← filled values is
      return String.ofList back.reverse ++ rest := by
  induction is generalizing back with
  | nil =>
    have hback := fillAll_dataToken values back []
    rwa [append_nil] at hback
  | cons i is ih =>
    have hcons : filled values (i :: is) = do
        let text ← fillItem values i
        let rest ← filled values is
        return text ++ rest := join_mapM_cons (fillItem values) i is
    rw [hcons]
    cases i with
    | char c =>
      rw [tokensOf, ih]
      cases filled values is with
      | error fault => rfl
      | ok rest =>
        have hpush : String.ofList (c :: back).reverse =
            String.ofList back.reverse ++ String.singleton c := by
          rw [← String.toList_inj]
          simp
        simp only [bind, Except.bind, pure, Except.pure, fillItem, hpush, String.append_assoc]
    | slot key =>
      have hvalue : fillAll values (.value key :: tokensOf [] is) = do
          let text ← fill values (.value key)
          let rest ← fillAll values (tokensOf [] is)
          return text ++ rest := join_mapM_cons (fill values) _ _
      rw [tokensOf, fillAll_dataToken, hvalue, ih]
      rw [show fillItem values (.slot key) = fill values (.value key) from rfl]
      cases fill values (.value key) with
      | error fault => rfl
      | ok text =>
        cases filled values is with
        | error fault => rfl
        | ok rest => simp [bind, Except.bind, pure, Except.pure]

theorem render_outlineText (values : Table String String)
    (hkeys : ∀ key, Piece.slot key ∈ ps → IsKey key) (hforms : OpensNoForm (layout ps)) :
    render (outlineText ps) values = filled values (tidy (layout ps)) := by
  have htokens := tokensFrom_spelled [] (fun key hkey => hkeys key (slot_mem_layout.mp
    (slot_mem_tidy.mp hkey))) hforms.tidy
  have hfill := fillAll_tokensOf values [] (tidy (layout ps))
  unfold render
  rw [normalizeLines_outlineText hkeys, htokens]
  refine hfill.trans ?_
  cases filled values (tidy (layout ps)) with
  | error f => rfl
  | ok text => simp [bind, Except.bind, pure, Except.pure]

theorem fill_value_isOk_iff : (∃ text, fill values (.value key) = .ok text) ↔ key ∈ values.names := by
  simp only [fill]
  cases hvalue : values.find? key with
  | none => simpa using Table.find?_eq_none_iff.mp hvalue
  | some value => simpa using Table.mem_names.mpr ⟨value, Table.mem_of_find? hvalue⟩

theorem filled_isOk_iff (values : Table String String) (is : List Item) :
    (∃ text, filled values is = .ok text) ↔ ∀ key, Item.slot key ∈ is → key ∈ values.names := by
  have hitem : ∀ i : Item, (∃ text, fillItem values i = .ok text) ↔
      ∀ key, i = .slot key → key ∈ values.names := by
    intro i
    cases i with
    | char c => simp [fillItem]
    | slot key =>
      simp only [fillItem, fill_value_isOk_iff, Item.slot.injEq, forall_eq']
  induction is with
  | nil => simp [filled]
  | cons i is ih =>
    have hcons : filled values (i :: is) = do
        let text ← fillItem values i
        let rest ← filled values is
        return text ++ rest := join_mapM_cons (fillItem values) i is
    have hboth : (∃ text, filled values (i :: is) = .ok text) ↔
        (∃ text, fillItem values i = .ok text) ∧ ∃ text, filled values is = .ok text := by
      rw [hcons]
      simp only [bind_eq_ok, pure_eq_ok]
      constructor
      · rintro ⟨text, first, hfirst, rest, hrest, -⟩
        exact ⟨⟨first, hfirst⟩, rest, hrest⟩
      · rintro ⟨⟨first, hfirst⟩, rest, hrest⟩
        exact ⟨_, first, hfirst, rest, hrest, rfl⟩
    refine (hboth.trans (and_congr (hitem i) ih)).trans ?_
    simp only [mem_cons, or_imp, forall_and, eq_comm]

end ObjcLowering.Patched
