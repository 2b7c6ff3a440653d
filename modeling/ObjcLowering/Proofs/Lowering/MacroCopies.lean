import Mathlib.Data.List.Pairwise
import ObjcLowering.Proofs.Lowering.ExpressionCases

/-! Copies of the uses of macros. -/

namespace ObjcLowering.Lowering

open Ast
open List hiding after length span

theorem toList_loop_eq (bs : ByteArray) (i : Nat) (r : Bytes) :
    ByteArray.toList.loop bs i r = r.reverse ++ bs.data.toList.drop i := by
  fun_induction ByteArray.toList.loop bs i r with
  | case1 i r h ih =>
    have hi : i < bs.data.toList.length := h
    have hget : bs.get! i = bs.data.toList[i] := getElem!_pos bs.data i h
    rw [ih, drop_eq_getElem_cons hi, hget]
    simp
  | case2 i r h => rw [drop_of_length_le (Nat.not_lt.mp h), append_nil]

theorem bytesOf_eq (text : String) : bytesOf text = text.toByteArray.data.toList := by
  have h := toList_loop_eq text.toByteArray 0 []
  rwa [reverse_nil, nil_append, drop_zero] at h

@[simp] theorem bytesOf_append (a b : String) : bytesOf (a ++ b) = bytesOf a ++ bytesOf b := by
  simp [bytesOf_eq]

@[simp] theorem length_bytesOf (text : String) : (bytesOf text).length = text.utf8ByteSize := by
  simp [bytesOf_eq]

theorem decode_bytesOf (text : String) : decode (bytesOf text) = .ok text := by
  have hbytes : (bytesOf text).toByteArray = text.toByteArray := by
    rw [bytesOf_eq]
    ext1
    simp
  rw [decode, hbytes, String.fromUTF8?, dif_pos text.isValidUTF8]
  rfl

theorem placeIn_natCast (h : i ≤ size) : placeIn size i = i := by
  rw [placeIn, if_neg (by omega), Int.toNat_natCast, Nat.min_eq_left h]

theorem slice_between (before inner after : Bytes) :
    (before ++ inner ++ after).slice before.length (before.length + inner.length : Nat) = inner := by
  rw [Bytes.slice, placeIn_natCast (by simp), placeIn_natCast (by simp), ← length_append,
    take_left, drop_left]

theorem slice_rest (before after : Bytes) :
    (before ++ after).slice before.length (before ++ after).length = after := by
  have h := slice_between before after []
  rwa [append_nil, ← length_append] at h

/-! ### The closing parenthesis -/

/-- Where a reader of C stands: in code, after a slash in code, in a literal with its mark, after a
backslash in one, in a comment up to the end of the line, in a comment, and after a star in one. -/
inductive Lexing
  | code
  | slash
  | quoted (mark : UInt8)
  | escaped (mark : UInt8)
  | line
  | comment
  | star
  deriving DecidableEq, Inhabited, Repr

def Lexing.ofCode (b : UInt8) : Lexing :=
  if b = 0x22 ∨ b = 0x27 then .quoted b else if b = 0x2F then .slash else .code

def Lexing.next : Lexing → UInt8 → Lexing
  | .code, b => ofCode b
  | .slash, b => if b = 0x2A then .comment else if b = 0x2F then .line else ofCode b
  | .quoted mark, b => if b = mark then .code else if b = 0x5C then .escaped mark else .quoted mark
  | .escaped mark, _ => .quoted mark
  | .line, b => if b = 0x0A then .code else .line
  | .comment, b => if b = 0x2A then .star else .comment
  | .star, b => if b = 0x2F then .code else if b = 0x2A then .star else .comment

def Lexing.isCode : Lexing → Bool
  | .code | .slash => true
  | _ => false

def depthAfter (d : Nat) (b : UInt8) : Nat :=
  if b = openParen then d + 2 else if b = closeParen then d else d + 1

/-- How many bytes a reader of C takes up to the parenthesis that closes the last of `depth` open ones. -/
def closing? : Lexing → (depth : Nat) → Bytes → Option Nat
  | _, 0, _ => some 0
  | _, _ + 1, [] => none
  | l, d + 1, b :: bs =>
    (closing? (l.next b) (if l.isCode then depthAfter d b else d + 1) bs).map (· + 1)

/-- The parentheses in each literal and comment match among themselves, up to the one that closes the
last of `depth` open ones; `inner` of them are open in the literal or comment at the front. -/
def isBalanced : Lexing → (depth inner : Nat) → Bytes → Bool
  | _, 0, _, _ => true
  | _, _ + 1, _, [] => true
  | l, d + 1, e, b :: bs =>
    if l.isCode then e == 0 && isBalanced (l.next b) (depthAfter d b) 0 bs
    else if b = openParen then isBalanced (l.next b) (d + 1) (e + 1) bs
    else if b = closeParen then 0 < e && isBalanced (l.next b) (d + 1) (e - 1) bs
    else isBalanced (l.next b) (d + 1) e bs

theorem closedLength_eq
    (hbalanced : isBalanced l (d + 1) e bs = true) (hclosing : closing? l (d + 1) bs = some k) :
    closedLength (d + 1 + e) bs = k := by
  induction bs generalizing l d e k with
  | nil => cases hclosing
  | cons b bs ih =>
    rw [closing?, Option.map_eq_some_iff] at hclosing
    obtain ⟨k, hclosing, rfl⟩ := hclosing
    rw [isBalanced] at hbalanced
    rw [Nat.add_right_comm, closedLength, Nat.add_right_cancel_iff]
    by_cases hcode : l.isCode = true
    · rw [if_pos hcode] at hclosing hbalanced
      simp only [Bool.and_eq_true, beq_iff_eq] at hbalanced
      obtain ⟨rfl, hbalanced⟩ := hbalanced
      change closedLength (depthAfter d b) bs = k
      cases hd : depthAfter d b with
      | zero =>
        rw [hd, closing?] at hclosing
        cases hclosing
        rw [closedLength]
      | succ m =>
        rw [hd] at hclosing hbalanced
        exact ih hbalanced hclosing
    · rw [if_neg hcode] at hclosing hbalanced
      by_cases hopen : b = openParen
      · rw [if_pos hopen] at hbalanced ⊢
        rw [← ih hbalanced hclosing]
        congr 1
        omega
      · rw [if_neg hopen] at hbalanced ⊢
        by_cases hclose : b = closeParen
        · rw [if_pos hclose] at hbalanced ⊢
          simp only [Bool.and_eq_true, decide_eq_true_eq] at hbalanced
          rw [← ih hbalanced.2 hclosing]
          congr 1
          omega
        · rw [if_neg hclose] at hbalanced ⊢
          rw [← ih hbalanced hclosing]
          congr 1
          omega

/-- What follows the name of a macro in its use: nothing, or the arguments up to the parenthesis that a
reader of C takes for the closing one. -/
inductive ArgumentList : (arguments after : String) → Prop
  | none : ((bytesOf after).dropWhile isArgumentBlank).head? ≠ some openParen →
      ArgumentList "" after
  | passed {gap inner after : String} : (∀ b ∈ bytesOf gap, isArgumentBlank b = true) →
      closing? .code 1 (bytesOf (inner ++ after)) = some inner.utf8ByteSize →
      isBalanced .code 1 0 (bytesOf (inner ++ after)) = true → ArgumentList (gap ++ "(" ++ inner) after

theorem argumentLength_eq (h : ArgumentList arguments after) :
    argumentLength (bytesOf (arguments ++ after)) = arguments.utf8ByteSize := by
  cases h with
  | none h =>
    rw [String.empty_append]
    unfold argumentLength
    split
    · next b rest hrest =>
      rw [hrest, head?_cons, ne_eq, Option.some.injEq] at h
      rw [if_neg h]
      rfl
    · rfl
  | @passed gap inner _ hgap hclosing hbalanced =>
    have hopen : bytesOf "(" = [openParen] := by decide +kernel
    have hbytes : bytesOf (gap ++ "(" ++ inner ++ after) =
        bytesOf gap ++ openParen :: bytesOf (inner ++ after) := by simp [hopen]
    have hdrop : (bytesOf (gap ++ "(" ++ inner ++ after)).dropWhile isArgumentBlank =
        openParen :: bytesOf (inner ++ after) := by
      rw [hbytes, dropWhile_append_of_pos hgap]
      rfl
    have htake : (bytesOf (gap ++ "(" ++ inner ++ after)).takeWhile isArgumentBlank = bytesOf gap := by
      rw [hbytes, takeWhile_append_of_pos hgap]
      exact append_nil _
    rw [argumentLength, hdrop]
    dsimp only
    rw [if_pos rfl, htake, closedLength_eq hbalanced hclosing]
    simp only [length_bytesOf, String.utf8ByteSize_append]
    rfl

theorem macroText_eq (h : ArgumentList arguments after) :
    macroText (before ++ name ++ arguments ++ after) before.utf8ByteSize name.utf8ByteSize =
      .ok (name ++ arguments) := by
  have hrest : (bytesOf (before ++ name ++ arguments ++ after)).slice
      ((before.utf8ByteSize : Int) + name.utf8ByteSize) (bytesOf (before ++ name ++ arguments ++ after)).length =
      bytesOf (arguments ++ after) := by
    have hslice := slice_rest (bytesOf (before ++ name)) (bytesOf (arguments ++ after))
    simpa using hslice
  have huse : (bytesOf (before ++ name ++ arguments ++ after)).slice before.utf8ByteSize
      ((before.utf8ByteSize : Int) + name.utf8ByteSize + arguments.utf8ByteSize) =
      bytesOf (name ++ arguments) := by
    have hslice := slice_between (bytesOf before) (bytesOf (name ++ arguments)) (bytesOf after)
    simpa [Int.add_assoc] using hslice
  rw [macroText, hrest, argumentLength_eq h, huse, decode_bytesOf]

def span? (a : Attrs) : Option (Int × Int) := (spelledRange? a).toOption.join

structure Argument where
  node : Node
  span : Int × Int
  deriving Inhabited

def spelt (n : Node) : List Argument := ((span? n.attrs).map fun span => ⟨n, span⟩).toList

def speltIn (n : Node) : List Argument := n.preorder.flatMap spelt

def speltInAll (ns : List Node) : List Argument := (Node.preorderList ns).flatMap spelt

mutual

def outermostIn : Node → List Argument
  | .mk a ns =>
    match span? a with
    | some span => [⟨.mk a ns, span⟩]
    | none => outermostInAll ns

def outermostInAll : List Node → List Argument
  | [] => []
  | n :: ns => outermostIn n ++ outermostInAll ns

end

def firsts (seen : List (Int × Int)) : List Argument → List Argument
  | [] => []
  | x :: xs => if x.span ∈ seen then firsts seen xs else x :: firsts (x.span :: seen) xs

def seenAfter (seen : List (Int × Int)) (xs : List Argument) : List (Int × Int) :=
  (xs.map Argument.span).reverse ++ seen

mutual

/-- The arguments in a tree that are replaced when some ranges are seen already. -/
def replacedIn (seen : List (Int × Int)) : Node → List Argument
  | .mk a ns =>
    match span? a with
    | some span => if span ∈ seen then replacedInAll seen ns else [⟨.mk a ns, span⟩]
    | none => replacedInAll seen ns

def replacedInAll (seen : List (Int × Int)) : List Node → List Argument
  | [] => []
  | n :: ns => replacedIn seen n ++ replacedInAll (seenAfter seen (replacedIn seen n)) ns

end

def Argument.IsPlain (x : Argument) : Prop := ∀ y ∈ speltIn x.node, y.span = x.span

def PlainRepeats (xs : List Argument) : Prop := xs.Pairwise fun x y => x.span = y.span → y.IsPlain

instance (x : Argument) : Decidable x.IsPlain :=
  inferInstanceAs (Decidable (∀ y ∈ speltIn x.node, y.span = x.span))

instance (xs : List Argument) : Decidable (PlainRepeats xs) :=
  inferInstanceAs (Decidable (xs.Pairwise fun x y => x.span = y.span → y.IsPlain))

section Seen

theorem seenAfter_append : seenAfter seen (xs ++ ys) = seenAfter (seenAfter seen xs) ys := by
  simp [seenAfter]

theorem mem_seenAfter : span ∈ seenAfter seen xs ↔ (∃ x ∈ xs, x.span = span) ∨ span ∈ seen := by
  simp [seenAfter]

theorem seen_subset_seenAfter : seen ⊆ seenAfter seen xs := subset_append_right _ _

theorem firsts_append :
    firsts seen (xs ++ ys) = firsts seen xs ++ firsts (seenAfter seen (firsts seen xs)) ys := by
  induction xs generalizing seen with
  | nil => rfl
  | cons x xs ih =>
    rw [cons_append, firsts, firsts]
    by_cases hseen : x.span ∈ seen
    · rw [if_pos hseen, if_pos hseen, ih]
    · rw [if_neg hseen, if_neg hseen, ih, cons_append]
      simp [seenAfter]

theorem firsts_sublist : (firsts seen xs).Sublist xs := by
  induction xs generalizing seen with
  | nil => exact .slnil
  | cons x xs ih =>
    rw [firsts]
    split
    · exact ih.cons x
    · exact ih.cons_cons x

theorem span_not_mem_of_firsts (h : x ∈ firsts seen xs) : x.span ∉ seen := by
  induction xs generalizing seen with
  | nil => cases h
  | cons y xs ih =>
    rw [firsts] at h
    split at h
    · exact ih h
    · next hy =>
      rcases mem_cons.mp h with rfl | h
      · exact hy
      · exact fun hx => ih h (mem_cons_of_mem _ hx)

theorem span_ne_of_firsts : (firsts seen xs).Pairwise fun x y => x.span ≠ y.span := by
  induction xs generalizing seen with
  | nil => exact .nil
  | cons x xs ih =>
    rw [firsts]
    split
    · exact ih
    · refine .cons (fun y hy hspan => ?_) ih
      exact span_not_mem_of_firsts hy (hspan ▸ mem_cons_self)

end Seen

theorem speltIn_of_some (h : span? a = some span) :
    speltIn (.mk a ns) = ⟨.mk a ns, span⟩ :: speltInAll ns := by
  rw [speltIn, Node.preorder, flatMap_cons, speltInAll, spelt, Node.attrs, h]
  rfl

theorem speltIn_of_none (h : span? a = none) : speltIn (.mk a ns) = speltInAll ns := by
  rw [speltIn, Node.preorder, flatMap_cons, speltInAll, spelt, Node.attrs, h]
  rfl

theorem speltInAll_cons : speltInAll (n :: ns) = speltIn n ++ speltInAll ns := by
  rw [speltInAll, Node.preorderList, flatMap_append, speltIn, speltInAll]

/-! ### What is replaced -/

mutual

theorem replacedIn_eq_nil : (n : Node) →
    (∀ x ∈ speltIn n, x.span ∈ seen) → replacedIn seen n = []
  | .mk a ns, h => by
    rw [replacedIn]
    cases hspan : span? a with
    | none =>
      rw [speltIn_of_none hspan] at h
      exact replacedInAll_eq_nil ns h
    | some span =>
      rw [speltIn_of_some hspan] at h
      obtain ⟨hseen, hns⟩ := forall_mem_cons.mp h
      dsimp only
      rw [if_pos hseen]
      exact replacedInAll_eq_nil ns hns

theorem replacedInAll_eq_nil : (ns : List Node) →
    (∀ x ∈ speltInAll ns, x.span ∈ seen) → replacedInAll seen ns = []
  | [], _ => by rw [replacedInAll]
  | n :: ns, h => by
    rw [speltInAll_cons] at h
    obtain ⟨hn, hns⟩ := forall_mem_append.mp h
    rw [replacedInAll, replacedIn_eq_nil n hn, nil_append]
    exact replacedInAll_eq_nil ns hns

end

mutual

theorem replacedIn_eq_firsts : (n : Node) → PlainRepeats (outermostIn n) →
    (∀ x ∈ outermostIn n, x.span ∈ seen → x.IsPlain) → replacedIn seen n = firsts seen (outermostIn n)
  | .mk a ns, hrepeats, hseen => by
    rw [outermostIn] at hrepeats hseen ⊢
    rw [replacedIn]
    cases hspan : span? a with
    | none =>
      simp only [hspan] at hrepeats hseen
      exact replacedInAll_eq_firsts ns hrepeats hseen
    | some span =>
      simp only [hspan] at hseen
      simp only [firsts]
      by_cases hmem : span ∈ seen
      · have hplain := hseen _ mem_cons_self hmem
        rw [Argument.IsPlain, speltIn_of_some hspan] at hplain
        rw [if_pos hmem, if_pos hmem]
        refine replacedInAll_eq_nil ns fun x hx => ?_
        rw [hplain x (mem_cons_of_mem _ hx)]
        exact hmem
      · rw [if_neg hmem, if_neg hmem]

theorem replacedInAll_eq_firsts : (ns : List Node) →
    PlainRepeats (outermostInAll ns) → (∀ x ∈ outermostInAll ns, x.span ∈ seen → x.IsPlain) →
    replacedInAll seen ns = firsts seen (outermostInAll ns)
  | [], _, _ => by rw [replacedInAll, outermostInAll, firsts]
  | n :: ns, hrepeats, hseen => by
    rw [outermostInAll] at hrepeats hseen ⊢
    obtain ⟨hfirst, hothers, hbetween⟩ := pairwise_append.mp hrepeats
    obtain ⟨hn, hns⟩ := forall_mem_append.mp hseen
    rw [replacedInAll, firsts_append, replacedIn_eq_firsts n hfirst hn]
    congr 1
    refine replacedInAll_eq_firsts ns hothers fun y hy hmem => ?_
    rcases mem_seenAfter.mp hmem with ⟨x, hx, hspan⟩ | hmem
    · exact hbetween x (firsts_sublist.subset hx) y hy hspan
    · exact hns y hy hmem

end

def SpansApart (σ τ : Int × Int) : Prop := σ.2 ≤ τ.1 ∨ τ.2 ≤ σ.1

instance (σ τ : Int × Int) : Decidable (SpansApart σ τ) := inferInstanceAs (Decidable (_ ∨ _))

theorem SpansApart.symm (h : SpansApart σ τ) : SpansApart τ σ := Or.symm h

/-- What is expected of the ranges in a tree: they can be read, none is empty, an argument inside another
lies in its range, and of two outermost ones the ranges are the same or apart. -/
structure Nested (n : Node) : Prop where
  readable : ∀ m ∈ n.preorder, (spelledRange? m.attrs).isOk = true
  nonempty : ∀ x ∈ speltIn n, x.span.1 < x.span.2
  inside : ∀ x ∈ speltIn n, ∀ y ∈ speltIn x.node, x.span.1 ≤ y.span.1 ∧ y.span.2 ≤ x.span.2
  outermost : (outermostIn n).Pairwise fun x y => x.span = y.span ∨ SpansApart x.span y.span

mutual

theorem span_mem_of_outermost : (n : Node) →
    ∀ x ∈ outermostIn n, x.span ∈ seenAfter seen (replacedIn seen n)
  | .mk a ns => by
    rw [outermostIn, replacedIn]
    cases hspan : span? a with
    | none => exact span_mem_of_outermostAll ns
    | some span =>
      intro x hx
      rw [mem_singleton.mp hx]
      dsimp only
      by_cases hmem : span ∈ seen
      · exact seen_subset_seenAfter hmem
      · rw [if_neg hmem]
        exact mem_cons_self

theorem span_mem_of_outermostAll : (ns : List Node) →
    ∀ x ∈ outermostInAll ns, x.span ∈ seenAfter seen (replacedInAll seen ns)
  | [] => by
    rw [outermostInAll]
    exact fun _ h => absurd h not_mem_nil
  | n :: ns => by
    rw [outermostInAll, replacedInAll, seenAfter_append, forall_mem_append]
    exact ⟨fun x hx => seen_subset_seenAfter (span_mem_of_outermost n x hx),
      span_mem_of_outermostAll ns⟩

end

mutual

theorem exists_smaller_of_replaced (hσ : σ ∈ seen) : (n : Node) → (∃ x ∈ speltIn n, x.span ≠ σ) →
    ∃ y ∈ speltIn n, y.span ≠ σ ∧ y.span ∈ seenAfter seen (replacedIn seen n)
  | .mk a ns, h => by
    rw [replacedIn]
    cases hspan : span? a with
    | none =>
      rw [speltIn_of_none hspan] at h ⊢
      exact exists_smaller_of_replacedAll hσ ns h
    | some span =>
      rw [speltIn_of_some hspan] at h ⊢
      by_cases hsame : span = σ
      · obtain ⟨x, hx, hne⟩ := h
        have hx : x ∈ speltInAll ns := by
          rcases mem_cons.mp hx with rfl | hx
          · exact absurd hsame hne
          · exact hx
        obtain ⟨y, hy, hmem⟩ := exists_smaller_of_replacedAll hσ ns ⟨x, hx, hne⟩
        dsimp only
        rw [if_pos (hsame ▸ hσ)]
        exact ⟨y, mem_cons_of_mem _ hy, hmem⟩
      · refine ⟨_, mem_cons_self, hsame, ?_⟩
        dsimp only
        by_cases hmem : span ∈ seen
        · exact seen_subset_seenAfter hmem
        · rw [if_neg hmem]
          exact mem_cons_self

theorem exists_smaller_of_replacedAll (hσ : σ ∈ seen) : (ns : List Node) → (∃ x ∈ speltInAll ns, x.span ≠ σ) →
    ∃ y ∈ speltInAll ns, y.span ≠ σ ∧ y.span ∈ seenAfter seen (replacedInAll seen ns)
  | [], h => by
    obtain ⟨x, hx, -⟩ := h
    cases hx
  | n :: ns, h => by
    obtain ⟨x, hx, hne⟩ := h
    rw [speltInAll_cons] at hx ⊢
    rw [replacedInAll, seenAfter_append]
    rcases mem_append.mp hx with hx | hx
    · obtain ⟨y, hy, hy', hmem⟩ := exists_smaller_of_replaced hσ n ⟨x, hx, hne⟩
      exact ⟨y, mem_append_left _ hy, hy', seen_subset_seenAfter hmem⟩
    · obtain ⟨y, hy, hmem⟩ :=
        exists_smaller_of_replacedAll (seen_subset_seenAfter hσ) ns ⟨x, hx, hne⟩
      exact ⟨y, mem_append_right _ hy, hmem⟩

end

def Inside (xs : List Argument) : Prop :=
  ∀ x ∈ xs, ∀ y ∈ speltIn x.node, x.span.1 ≤ y.span.1 ∧ y.span.2 ≤ x.span.2 ∧ y.span.1 < y.span.2

theorem Argument.isPlain_of_apart (hx : x.span ∈ seen) (hinside : Inside [x])
    (hapart : ∀ σ ∈ seenAfter seen (replacedIn seen x.node), σ ≠ x.span → SpansApart σ x.span) : x.IsPlain := by
  intro z hz
  by_contra hne
  -- The smaller argument is seen or replaced, so that its range and the one around it overlap.
  obtain ⟨y, hy, hsmaller, hmem⟩ := exists_smaller_of_replaced hx x.node ⟨z, hz, hne⟩
  have happ := hapart _ hmem hsmaller
  have hin := hinside x mem_cons_self y hy
  unfold SpansApart at happ
  omega

mutual

theorem plainRepeats_of_apart (seen : List (Int × Int)) : (n : Node) → Inside (outermostIn n) →
    (∀ σ ∈ seenAfter seen (replacedIn seen n), ∀ τ ∈ seenAfter seen (replacedIn seen n),
      σ ≠ τ → SpansApart σ τ) →
    (∀ x ∈ outermostIn n, x.span ∈ seen → x.IsPlain) ∧ PlainRepeats (outermostIn n)
  | .mk a ns, hinside, hapart => by
    cases hspan : span? a with
    | none =>
      simp only [outermostIn, replacedIn, hspan] at hinside hapart ⊢
      exact plainRepeats_of_apartAll seen ns hinside hapart
    | some span =>
      have houter : outermostIn (.mk a ns) = [⟨.mk a ns, span⟩] := by simp only [outermostIn, hspan]
      rw [houter] at hinside ⊢
      refine ⟨fun x hx hseen => ?_, pairwise_singleton _ _⟩
      obtain rfl := mem_singleton.mp hx
      exact Argument.isPlain_of_apart hseen hinside fun σ hσ hne =>
        hapart σ hσ _ (seen_subset_seenAfter hseen) hne

theorem plainRepeats_of_apartAll (seen : List (Int × Int)) : (ns : List Node) →
    Inside (outermostInAll ns) →
    (∀ σ ∈ seenAfter seen (replacedInAll seen ns), ∀ τ ∈ seenAfter seen (replacedInAll seen ns),
      σ ≠ τ → SpansApart σ τ) →
    (∀ x ∈ outermostInAll ns, x.span ∈ seen → x.IsPlain) ∧ PlainRepeats (outermostInAll ns)
  | [], _, _ => by
    rw [outermostInAll]
    exact ⟨fun _ h => absurd h not_mem_nil, .nil⟩
  | n :: ns, hinside, hapart => by
    rw [outermostInAll] at hinside ⊢
    rw [replacedInAll, seenAfter_append] at hapart
    obtain ⟨hn, hns⟩ := forall_mem_append.mp hinside
    obtain ⟨hplain, hrepeats⟩ := plainRepeats_of_apart seen n hn fun σ hσ τ hτ =>
      hapart σ (seen_subset_seenAfter hσ) τ (seen_subset_seenAfter hτ)
    obtain ⟨hplains, hrepeatss⟩ := plainRepeats_of_apartAll _ ns hns hapart
    refine ⟨forall_mem_append.mpr ⟨hplain, fun x hx hseen =>
      hplains x hx (seen_subset_seenAfter hseen)⟩, pairwise_append.mpr ⟨hrepeats, hrepeatss, ?_⟩⟩
    intro x hx y hy hspan
    exact hplains y hy (hspan ▸ span_mem_of_outermost n x hx)

end

mutual

theorem outermostIn_subset : (n : Node) → outermostIn n ⊆ speltIn n
  | .mk a ns => by
    rw [outermostIn]
    cases hspan : span? a with
    | none =>
      rw [speltIn_of_none hspan]
      exact outermostInAll_subset ns
    | some span =>
      rw [speltIn_of_some hspan]
      exact cons_subset_cons _ (nil_subset _)

theorem outermostInAll_subset : (ns : List Node) → outermostInAll ns ⊆ speltInAll ns
  | [] => by
    rw [outermostInAll]
    exact nil_subset _
  | n :: ns => by
    rw [outermostInAll, speltInAll_cons]
    exact append_subset.mpr ⟨subset_append_of_subset_left _ (outermostIn_subset n),
      subset_append_of_subset_right _ (outermostInAll_subset ns)⟩

end

theorem preorder_subset_of_speltIn (h : x ∈ speltIn n) : x.node.preorder ⊆ n.preorder := by
  obtain ⟨m, hm, hx⟩ := mem_flatMap.mp h
  obtain ⟨span, -, rfl⟩ := Option.map_eq_some_iff.mp (Option.mem_toList.mp hx)
  exact Node.preorder_subset_of_preorder n hm

theorem Nested.inside_outermost (h : Nested n) : Inside (outermostIn n) := by
  intro x hx y hy
  have hx := outermostIn_subset n hx
  obtain ⟨m, hm, hym⟩ := mem_flatMap.mp hy
  have hy' : y ∈ speltIn n := mem_flatMap.mpr ⟨m, preorder_subset_of_speltIn hx hm, hym⟩
  obtain ⟨hstart, hstop⟩ := h.inside x hx y hy
  exact ⟨hstart, hstop, h.nonempty y hy'⟩

theorem pairwise_apart_iff (h : Nested n) :
    (replacedIn [] n).Pairwise (fun x y => SpansApart x.span y.span) ↔ PlainRepeats (outermostIn n) := by
  constructor
  · intro hapart
    refine (plainRepeats_of_apart [] n h.inside_outermost fun σ hσ τ hτ hne => ?_).2
    obtain ⟨x, hx, rfl⟩ := (mem_seenAfter.mp hσ).resolve_right not_mem_nil
    obtain ⟨y, hy, rfl⟩ := (mem_seenAfter.mp hτ).resolve_right not_mem_nil
    have hsymm : Std.Symm fun x y : Argument => SpansApart x.span y.span := ⟨fun _ _ => SpansApart.symm⟩
    exact hapart.forall hx hy fun heq => hne (heq ▸ rfl)
  · intro hrepeats
    rw [replacedIn_eq_firsts n hrepeats fun _ _ h => absurd h not_mem_nil]
    exact (h.outermost.sublist firsts_sublist).imp₂
      (fun _ _ hor hne => hor.resolve_left hne) span_ne_of_firsts

def Argument.patch (offset : Int) (x : Argument) (text : String) : Patch :=
  ⟨x.span.1 - offset, x.span.2 - offset, text⟩

def patchOf (expr : Node → Lower String) (offset : Int) (x : Argument) : Lower Patch := do
  return x.patch offset (← expr x.node)

mutual

theorem yields_patchesIn : (n : Node) →
    (∀ m ∈ n.preorder, (spelledRange? m.attrs).isOk = true) →
    {s s' : State} → {r : List Patch × List (Int × Int)} →
    (Yields (patchesIn expr offset seen n) env s r s' ↔
      r.2 = seenAfter seen (replacedIn seen n) ∧
        Yields ((replacedIn seen n).mapM (patchOf expr offset)) env s r.1 s')
  | .mk a ns, hread, s, s', r => by
    rw [Node.preorder] at hread
    obtain ⟨hread, hns⟩ := forall_mem_cons.mp hread
    obtain ⟨span, hspan⟩ : ∃ span, spelledRange? a = .ok span := by
      cases hspan : spelledRange? a with
      | ok span => exact ⟨span, rfl⟩
      | error f => rw [Node.attrs, hspan] at hread; cases hread
    have hspan? : span? a = span := by
      rw [span?, hspan]
      rfl
    rw [patchesIn, replacedIn, hspan?, hspan, yields_liftM_bind]
    simp only [Except.ok.injEq, exists_eq_left']
    cases span with
    | none => exact yields_patchesInAll ns hns
    | some span =>
      dsimp only
      by_cases hmem : span ∈ seen
      · rw [if_pos (contains_iff_mem.mpr hmem), if_pos hmem]
        exact yields_patchesInAll ns hns
      · rw [if_neg (fun h => hmem (contains_iff_mem.mp h)), if_neg hmem, yields_bind_pure]
        simp only [yields_mapM_cons, yields_mapM_nil, patchOf, yields_bind_pure]
        constructor
        · rintro ⟨text, htext, rfl⟩
          exact ⟨rfl, _, s', [], ⟨text, htext, rfl⟩, ⟨rfl, rfl⟩, rfl⟩
        · rintro ⟨hseen, p, t, ps, ⟨text, htext, rfl⟩, ⟨rfl, rfl⟩, hr⟩
          exact ⟨text, htext, Prod.ext hr hseen⟩

theorem yields_patchesInAll : (ns : List Node) →
    (∀ m ∈ Node.preorderList ns, (spelledRange? m.attrs).isOk = true) →
    {s s' : State} → {r : List Patch × List (Int × Int)} →
    (Yields (patchesInAll expr offset seen ns) env s r s' ↔
      r.2 = seenAfter seen (replacedInAll seen ns) ∧
        Yields ((replacedInAll seen ns).mapM (patchOf expr offset)) env s r.1 s')
  | [], hread, s, s', r => by
    rw [patchesInAll, replacedInAll, yields_pure, yields_mapM_nil, Prod.ext_iff]
    exact ⟨fun ⟨⟨h, h'⟩, hs⟩ => ⟨h', h, hs⟩, fun ⟨h', h, hs⟩ => ⟨⟨h, h'⟩, hs⟩⟩
  | n :: ns, hread, s, s', r => by
    rw [Node.preorderList] at hread
    obtain ⟨hn, hns⟩ := forall_mem_append.mp hread
    rw [patchesInAll, replacedInAll, seenAfter_append, yields_mapM_append, yields_bind]
    simp only [yields_patchesIn n hn]
    constructor
    · rintro ⟨first, t, ⟨hseen, hfirst⟩, h⟩
      obtain ⟨others, u, hothers, h⟩ := yields_bind.mp h
      obtain ⟨rfl, rfl⟩ := yields_pure.mp h
      rw [hseen, yields_patchesInAll ns hns] at hothers
      exact ⟨hothers.1, first.1, t, others.1, hfirst, hothers.2, rfl⟩
    · rintro ⟨hseen, first, t, others, hfirst, hothers, hr⟩
      refine ⟨(first, _), t, ⟨rfl, hfirst⟩, yields_bind.mpr ⟨(others, _), s',
        (yields_patchesInAll ns hns).mpr ⟨rfl, hothers⟩, yields_pure.mpr ⟨Prod.ext hr hseen, rfl⟩⟩⟩

end

/-- A text from an offset on, and the same text with the ranges of patches replaced: between the ranges,
which follow one another, it is kept. -/
inductive Spliced : (here : Int) → String → List Patch → String → Prop
  | done {here : Int} {text : String} : Spliced here text [] text
  | next {here : Int} {kept replaced rest out : String} {p : Patch} {ps : List Patch} :
      p.start = here + kept.utf8ByteSize → p.stop = p.start + replaced.utf8ByteSize →
      0 < replaced.utf8ByteSize → Spliced p.stop rest ps out →
      Spliced here (kept ++ replaced ++ rest) (p :: ps) (kept ++ p.text ++ out)

def Patch.Apart (p q : Patch) : Prop := SpansApart (p.start, p.stop) (q.start, q.stop)

def Patch.Fits (text : String) (p : Patch) : Prop :=
  ∃ before replaced after : String, text = before ++ replaced ++ after ∧ p.start = before.utf8ByteSize ∧
    p.stop = p.start + replaced.utf8ByteSize ∧ 0 < replaced.utf8ByteSize

theorem Patch.Fits.start_lt_stop {text : String} {p : Patch} (h : p.Fits text) : p.start < p.stop := by
  obtain ⟨before, replaced, after, -, hstart, hstop, hreplaced⟩ := h
  omega

theorem Patch.apply_between {p : Patch} (hstart : p.start = before.length)
    (hstop : p.stop = p.start + replaced.length) (hreplaced : 0 < replaced.length) :
    p.apply (before ++ replaced ++ after) = before ++ bytesOf p.text ++ after := by
  have hin : (decide (0 ≤ p.start) && decide (p.start < p.stop) &&
      decide (p.stop ≤ (before ++ replaced ++ after).length)) = true := by
    simp only [length_append, Bool.and_eq_true, decide_eq_true_eq]
    omega
  have hbefore : p.start.toNat = before.length := by omega
  have hafter : p.stop.toNat = (before ++ replaced).length := by
    rw [length_append]
    omega
  rw [Patch.apply, if_pos hin, hbefore, hafter, drop_left, append_assoc before replaced,
    take_left]

theorem Spliced.foldr_apply {text out : String}
    (h : Spliced here text ps out) (before : Bytes) (hbefore : here = before.length) :
    ps.foldr (fun p bs => p.apply bs) (before ++ bytesOf text) = before ++ bytesOf out := by
  induction h generalizing before with
  | done => rfl
  | @next here kept replaced rest out p ps hstart hstop hreplaced _ ih =>
    have hlength : (before ++ bytesOf kept).length = p.start := by
      rw [length_append, length_bytesOf, hstart, hbefore]
      omega
    have hrest := ih (before ++ bytesOf kept ++ bytesOf replaced) (by
      rw [hstop, length_append, ← hlength, length_bytesOf]
      omega)
    have hbytes : before ++ bytesOf (kept ++ replaced ++ rest) =
        before ++ bytesOf kept ++ bytesOf replaced ++ bytesOf rest := by simp
    rw [foldr_cons, hbytes, hrest, Patch.apply_between hlength.symm (by rw [length_bytesOf]; exact hstop)
      (by rw [length_bytesOf]; exact hreplaced)]
    simp

theorem exists_append_of_append_eq {a b c d : String} (h : a ++ b = c ++ d)
    (hsize : a.utf8ByteSize ≤ c.utf8ByteSize) : ∃ kept, c = a ++ kept ∧ b = kept ++ d := by
  have hlists : a.toList ++ b.toList = c.toList ++ d.toList := by
    rw [← String.toList_append, h, String.toList_append]
  rcases append_eq_append_iff.mp hlists with ⟨kept, hc, hb⟩ | ⟨cut, ha, hd⟩
  · refine ⟨String.ofList kept, String.toList_inj.mp ?_, String.toList_inj.mp ?_⟩
    · rw [hc, String.toList_append, String.toList_ofList]
    · rw [hb, String.toList_append, String.toList_ofList]
  · have ha : a = c ++ String.ofList cut := by
      rw [← String.toList_inj, ha, String.toList_append, String.toList_ofList]
    rw [ha, String.utf8ByteSize_append] at hsize
    have hcut : String.ofList cut = "" := String.utf8ByteSize_eq_zero_iff.mp (by omega)
    rw [hcut, String.append_empty] at ha
    subst ha
    refine ⟨"", String.append_empty.symm, ?_⟩
    rw [String.empty_append, ← String.toList_inj]
    exact append_cancel_left hlists

theorem exists_spliced (text before rest : String) {ps : List Patch} (htext : text = before ++ rest)
    (hfits : ∀ p ∈ ps, p.Fits text) (hfrom : ∀ p ∈ ps, before.utf8ByteSize ≤ p.start)
    (hordered : ps.Pairwise fun p q => p.stop ≤ q.start) :
    ∃ out, Spliced before.utf8ByteSize rest ps out := by
  induction ps generalizing before rest with
  | nil => exact ⟨rest, .done⟩
  | cons p ps ih =>
    obtain ⟨⟨front, replaced, after, hp, hstart, hstop, hreplaced⟩, hfits⟩ := forall_mem_cons.mp hfits
    obtain ⟨hp_from, hfrom⟩ := forall_mem_cons.mp hfrom
    obtain ⟨hp_before, hordered⟩ := pairwise_cons.mp hordered
    have hparts : before ++ rest = front ++ (replaced ++ after) := by
      rw [← htext, hp, String.append_assoc]
    obtain ⟨kept, rfl, rfl⟩ := exists_append_of_append_eq hparts (by omega)
    have hsize : ((before ++ kept ++ replaced).utf8ByteSize : Int) = p.stop := by
      rw [String.utf8ByteSize_append, hstop, hstart]
      omega
    obtain ⟨out, hout⟩ := ih (before ++ kept ++ replaced) after hp hfits
      (fun q hq => by rw [hsize]; exact hp_before q hq) hordered
    rw [hsize] at hout
    rw [String.utf8ByteSize_append] at hstart
    rw [← String.append_assoc]
    exact ⟨kept ++ p.text ++ out, .next (by omega) hstop hreplaced hout⟩

def isAfter (p q : Patch) : Bool := q.start < p.start || (q.start == p.start && q.stop ≤ p.stop)

theorem pairwise_isAfter (ps : List Patch) : (ps.mergeSort isAfter).Pairwise fun p q => isAfter p q = true := by
  refine pairwise_mergeSort (fun p q r hpq hqr => ?_) (fun p q => ?_) ps
  · simp only [isAfter, Bool.or_eq_true, Bool.and_eq_true, decide_eq_true_eq, beq_iff_eq] at hpq hqr ⊢
    omega
  · simp only [isAfter, Bool.or_eq_true, Bool.and_eq_true, decide_eq_true_eq, beq_iff_eq]
    omega

theorem applyPatches_eq (text : String) {ps : List Patch} (hfits : ∀ p ∈ ps, p.Fits text)
    (hapart : ps.Pairwise Patch.Apart) :
    ∃ qs out, qs.Perm ps ∧ Spliced 0 text qs out ∧ applyPatches text ps = .ok out := by
  have hperm : (ps.mergeSort isAfter).Perm ps := mergeSort_perm ps isAfter
  have hback : (ps.mergeSort isAfter).Pairwise fun p q => q.stop ≤ p.start := by
    have happ := hperm.symm.pairwise hapart SpansApart.symm
    refine (List.Pairwise.and_mem.mp (happ.and (pairwise_isAfter ps))).imp fun {p q} h => ?_
    obtain ⟨hp, hq, hpq, hafter⟩ := h
    have hp_nonempty := (hfits p (hperm.subset hp)).start_lt_stop
    simp only [isAfter, Bool.or_eq_true, Bool.and_eq_true, decide_eq_true_eq, beq_iff_eq] at hafter
    unfold Patch.Apart SpansApart at hpq
    omega
  have hordered : (ps.mergeSort isAfter).reverse.Pairwise fun p q => p.stop ≤ q.start :=
    pairwise_reverse.mpr hback
  have hfits' : ∀ p ∈ (ps.mergeSort isAfter).reverse, p.Fits text := fun p hp =>
    hfits p (hperm.subset (mem_reverse.mp hp))
  obtain ⟨out, hout⟩ := exists_spliced text "" text (by simp) hfits'
    (fun p hp => by
      obtain ⟨before, _, _, _, hstart, _⟩ := hfits' p hp
      rw [hstart]
      exact Int.natCast_nonneg _) hordered
  refine ⟨_, out, (reverse_perm _).trans hperm, hout, ?_⟩
  have hbytes := hout.foldr_apply [] rfl
  rw [nil_append, nil_append, foldr_reverse] at hbytes
  have happly : applyPatches text ps = decode ((ps.mergeSort isAfter).foldl Patch.apply (bytesOf text)) := rfl
  rw [happly, hbytes, decode_bytesOf]

theorem yields_mapM_patchOf (offset : Int) {xs : List Argument}
    (h : Yields (xs.mapM fun x => expr x.node) env s texts s') :
    Yields (xs.mapM (patchOf expr offset)) env s ((xs.zip texts).map fun e => e.1.patch offset e.2) s' := by
  induction xs generalizing s texts with
  | nil =>
    obtain ⟨-, rfl⟩ := yields_mapM_nil.mp h
    exact yields_mapM_nil.mpr ⟨rfl, rfl⟩
  | cons x xs ih =>
    obtain ⟨text, t, texts, htext, htexts, rfl⟩ := yields_mapM_cons.mp h
    exact yields_mapM_cons.mpr ⟨_, t, _, yields_bind_pure.mpr ⟨text, htext, rfl⟩, ih htexts, rfl⟩

theorem spans_of_yields {xs : List Argument} (h : Yields (xs.mapM (patchOf expr offset)) env s ps s') :
    ps.map (fun p => (p.start + offset, p.stop + offset)) = xs.map Argument.span := by
  induction xs generalizing s ps with
  | nil =>
    obtain ⟨rfl, -⟩ := yields_mapM_nil.mp h
    rfl
  | cons x xs ih =>
    obtain ⟨p, t, ps, hp, hps, rfl⟩ := yields_mapM_cons.mp h
    obtain ⟨text, -, rfl⟩ := yields_bind_pure.mp hp
    rw [map_cons, map_cons, ih hps]
    simp [Argument.patch]

theorem pairwise_apart_of_yields {xs : List Argument}
    (h : Yields (xs.mapM (patchOf expr offset)) env s ps s') :
    ps.Pairwise Patch.Apart ↔ xs.Pairwise fun x y => SpansApart x.span y.span := by
  have hspans := spans_of_yields h
  have hshift : ∀ p q : Patch, Patch.Apart p q ↔
      SpansApart (p.start + offset, p.stop + offset) (q.start + offset, q.stop + offset) := by
    intro p q
    unfold Patch.Apart SpansApart
    omega
  rw [List.Pairwise.iff hshift, ← pairwise_map (R := SpansApart)
    (f := fun p : Patch => (p.start + offset, p.stop + offset)), hspans, pairwise_map]

def Argument.LiesIn (before text : String) (x : Argument) : Prop :=
  ∃ front spelling back : String, text = front ++ spelling ++ back ∧
    x.span.1 = before.utf8ByteSize + front.utf8ByteSize ∧
    x.span.2 = x.span.1 + spelling.utf8ByteSize ∧ 0 < spelling.utf8ByteSize

/-- A node comes from the use of a macro in the source, which is copied: the text of the use follows
`before`, and it is not a constant of an included file. -/
structure ComesFrom (env : Env) (n : Node) (offset length : Json) (before name arguments after : String) :
    Prop where
  source_eq : env.source = some (before ++ name ++ arguments ++ after)
  macroUse_eq : macroUse? n = .ok (some (offset, length))
  offset_eq : byteCount offset = .ok before.utf8ByteSize
  length_eq : byteCount length = .ok name.utf8ByteSize
  passed : ArgumentList arguments after
  included : ∃ isIncluded, isSpeltInIncluded n = .ok isIncluded ∧
    (isIncluded = true → isTrivialExpansion n = false)
  spelt : ∀ x ∈ outermostIn n, x.LiesIn before (name ++ arguments)

section Copies

theorem Argument.LiesIn.fits {x : Argument} (h : x.LiesIn before text) (copy : String) :
    (x.patch before.utf8ByteSize copy).Fits text := by
  obtain ⟨front, spelling, back, htext, hstart, hstop, hspelling⟩ := h
  refine ⟨front, spelling, back, htext, ?_, ?_, hspelling⟩
  · simp only [Argument.patch]
    omega
  · simp only [Argument.patch]
    omega

theorem yields_copyMacro (huse : ComesFrom env n offset length before name arguments after)
    (hnested : Nested n) (hrepeats : PlainRepeats (outermostIn n)) {texts : List String}
    (htexts : Yields ((firsts [] (outermostIn n)).mapM fun x => expr x.node) env s texts s') :
    ∃ patches text,
      patches.Perm (((firsts [] (outermostIn n)).zip texts).map fun e => e.1.patch before.utf8ByteSize e.2) ∧
      Spliced 0 (name ++ arguments) patches text ∧
      Yields (copyMacro expr (before ++ name ++ arguments ++ after) n offset length) env s (some text) s' := by
  have hreplaced : replacedIn [] n = firsts [] (outermostIn n) :=
    replacedIn_eq_firsts n hrepeats fun _ _ h => absurd h not_mem_nil
  have hpatches := yields_mapM_patchOf before.utf8ByteSize htexts
  have hrun : Yields (patchesIn expr before.utf8ByteSize [] n) env s
      (((firsts [] (outermostIn n)).zip texts).map fun e => e.1.patch before.utf8ByteSize e.2,
        seenAfter [] (replacedIn [] n)) s' := by
    rw [yields_patchesIn n hnested.readable, hreplaced]
    exact ⟨rfl, hpatches⟩
  have hapart := (pairwise_apart_of_yields hpatches).mpr (hreplaced ▸ (pairwise_apart_iff hnested).mpr hrepeats)
  obtain ⟨patches, text, hperm, hspliced, happly⟩ := applyPatches_eq (name ++ arguments) (fun p hp => by
    obtain ⟨e, he, rfl⟩ := mem_map.mp hp
    exact (huse.spelt e.1 (firsts_sublist.subset (of_mem_zip he).1)).fits e.2) hapart
  refine ⟨patches, text, hperm, hspliced, ?_⟩
  obtain ⟨isIncluded, hincluded, hconstant⟩ := huse.included
  have hcopied : ¬ (isIncluded && !(decide ((name.utf8ByteSize : Int) < (name ++ arguments).toList.length))
      && isTrivialExpansion n) = true := by
    cases isIncluded with
    | false => simp
    | true => simp [hconstant rfl]
  simp only [copyMacro, huse.offset_eq, huse.length_eq, macroText_eq huse.passed, hincluded, yields_liftM_bind,
    Except.ok.injEq, exists_eq_left']
  rw [if_neg hcopied]
  refine yields_bind.mpr ⟨_, s', hrun, yields_liftM_bind.mpr ⟨text, happly, yields_pure.mpr ⟨rfl, rfl⟩⟩⟩

/-- The copy of a macro's use is the use as a reader of C delimits it, with the outermost arguments
replaced, each range once and by what its first argument is lowered to, as soon as the repeated arguments
hold no smaller ones; and that is when the ranges of the patches are apart. -/
theorem copy_replaces_arguments_once (huse : ComesFrom env n offset length before name arguments after)
    (hnested : Nested n) :
    (∀ patches seen, Yields (patchesIn expr before.utf8ByteSize [] n) env s (patches, seen) s' →
      (patches.Pairwise Patch.Apart ↔ PlainRepeats (outermostIn n))) ∧
    (PlainRepeats (outermostIn n) → ∀ texts,
      Yields ((firsts [] (outermostIn n)).mapM fun x => expr x.node) env s texts s' →
      ∃ patches text,
        patches.Perm (((firsts [] (outermostIn n)).zip texts).map fun e => e.1.patch before.utf8ByteSize e.2) ∧
        Spliced 0 (name ++ arguments) patches text ∧ Yields (copyExpr? expr n) env s (some text) s' ∧
        (endsInMacro n = .ok true → Yields (copyStmt? expr n) env s (some text) s')) := by
  constructor
  · intro patches seen hrun
    obtain ⟨-, hpatches⟩ := (yields_patchesIn n hnested.readable).mp hrun
    exact (pairwise_apart_of_yields hpatches).trans (pairwise_apart_iff hnested)
  · intro hrepeats texts htexts
    obtain ⟨patches, text, hperm, hspliced, hcopy⟩ := yields_copyMacro huse hnested hrepeats htexts
    refine ⟨patches, text, hperm, hspliced, ?_, fun hends => ?_⟩
    · rw [copyExpr?, yields_read_bind]
      simp only [huse.source_eq]
      exact yields_liftM_bind.mpr ⟨_, huse.macroUse_eq, hcopy⟩
    · refine yields_liftM_bind.mpr ⟨_, huse.macroUse_eq, yields_liftM_bind.mpr ⟨_, hends, ?_⟩⟩
      rw [if_neg (by decide), yields_read_bind]
      simp only [huse.source_eq]
      exact hcopy

end Copies

/-! ### Repeated arguments -/

/-- A node that the use of a macro at the front of a source gives. It is spelt from the offset of its
first token to the end of its last one. -/
def expanded (nameLength : Int) (isArgument : Bool) (kind : String) (value : Option Json)
    (first last lastLength : Int) (inner : List Node) : Node :=
  let use : Spot := { offset := some (.int 0), tokLen := some (.int nameLength),
                      macroArgument := isArgument, isStated := true }
  let place (offset length : Int) : Place :=
    { expansion := .present use,
      spelling := .present { offset := some (.int offset), tokLen := some (.int length) } }
  .mk { kind, value, hasInner := true,
        range := .present { first := .present (place first 1), last := .present (place last lastLength) } }
    inner

def loggedLiteral : Node :=
  expanded 3 true "ObjCStringLiteral" none 11 12 4
    [expanded 3 true "StringLiteral" (some (.text "\"hi\"")) 12 12 4 []]

/-- What a macro that repeats its second argument makes of `LOG("(x)", @"hi")`. -/
def loggedTwice : Node := expanded 3 false "CallExpr" none 0 0 1 [loggedLiteral, loggedLiteral]

theorem nested_loggedTwice : Nested loggedTwice where
  readable := by decide +kernel
  nonempty := by decide +kernel
  inside := by decide +kernel
  outermost := by decide +kernel

def loggingEnv : Env := { (default : Env) with source := some "LOG(\"(x)\", @\"hi\");" }

theorem loggedTwice_comesFrom :
    ComesFrom loggingEnv loggedTwice (.int 0) (.int 3) "" "LOG" "(\"(x)\", @\"hi\")" ";" where
  source_eq := by decide +kernel
  macroUse_eq := rfl
  offset_eq := rfl
  length_eq := rfl
  passed := @ArgumentList.passed "" "\"(x)\", @\"hi\")" ";" (by decide +kernel) (by decide +kernel)
    (by decide +kernel)
  included := ⟨false, rfl, fun h => by cases h⟩
  spelt := by
    intro x hx
    have hspan : ∀ x ∈ outermostIn loggedTwice, x.span = (11, 16) := by decide +kernel
    rw [Argument.LiesIn, hspan x hx]
    exact ⟨"LOG(\"(x)\", ", "@\"hi\"", ")", by decide +kernel, by decide +kernel, by decide +kernel,
      by decide +kernel⟩

theorem repeated_literal_replaced_once :
    PlainRepeats (outermostIn loggedTwice) ∧ (outermostIn loggedTwice).length = 2 ∧
      ∃ text s', Spliced 0 ("LOG" ++ "(\"(x)\", @\"hi\")") [⟨11, 16, "(struct OZString *)&_oz_str_L0_C0"⟩] text ∧
        Yields (copyExpr? (level 2).expr loggedTwice) loggingEnv {} (some text) s' := by
  have hrepeats : PlainRepeats (outermostIn loggedTwice) := by decide +kernel
  have hfirsts : firsts [] (outermostIn loggedTwice) = [⟨loggedLiteral, (11, 16)⟩] := rfl
  obtain ⟨⟨texts, s'⟩, hrun, htexts⟩ : ∃ r,
      ((((firsts [] (outermostIn loggedTwice)).mapM fun x => (level 2).expr x.node).run loggingEnv).run {}) =
        .ok r ∧ r.1 = ["(struct OZString *)&_oz_str_L0_C0"] := toOption_map_eq_some.mp (by decide +kernel)
  obtain ⟨patches, text, hperm, hspliced, hcopy, -⟩ :=
    (copy_replaces_arguments_once loggedTwice_comesFrom nested_loggedTwice).2 hrepeats texts hrun
  obtain rfl : texts = _ := htexts
  rw [hfirsts] at hperm
  rw [perm_singleton.mp hperm] at hspliced
  exact ⟨hrepeats, by decide +kernel, text, s', hspliced, hcopy⟩

/-- What a macro that repeats its argument makes of `TWICE(@[@"a"])`. -/
def arrayTwice : Node :=
  let literal := expanded 5 true "ObjCStringLiteral" none 8 9 3
    [expanded 5 true "StringLiteral" (some (.text "\"a\"")) 9 9 3 []]
  let array := expanded 5 true "ObjCArrayLiteral" none 6 12 1 [literal]
  expanded 5 false "CallExpr" none 0 0 1 [array, array]

theorem patched_inside_repeated_array :
    (((patchesIn (level 3).expr 0 [] arrayTwice).run default).run {}).toOption.map
        (fun r => r.1.1.map fun p => (p.start, p.stop)) = some [(6, 13), (8, 12)] ∧
      closing? .code 1 (bytesOf "\")\", x);") = some 7 ∧
      (macroText "LOG(\")\", x);" 0 3).toOption = some "LOG(\")" := by
  decide +kernel

end ObjcLowering.Lowering
