import ObjcLowering.Proofs.Lowering.Hoists
import ObjcLowering.Proofs.Target.Temporaries

/-! All ways of writing an expression. -/

namespace ObjcLowering.Lowering

open Ast
open List hiding length

variable {n c : Node}

inductive Spells (expr : Node → Lower String) (env : Env) (n : Node) :
    List Part → State → List String → State → Prop
  | nil : Spells expr env n [] s [] s
  | cons {p : Position} {c : Node} {ps : List Part} {s t s' : State} {text : String}
      {texts : List String} : n.part? p = some c → Yields (expr c) env s text t →
      Spells expr env n ps t texts s' → Spells expr env n (.expr p :: ps) s (text :: texts) s'

namespace Spells

theorem append (h : Spells expr env n ps s texts t)
    (h' : Spells expr env n qs t more s') : Spells expr env n (ps ++ qs) s (texts ++ more) s' := by
  induction h with
  | nil => exact h'
  | cons hp htext _ ih => exact .cons hp htext (ih h')

theorem one (hp : n.part? p = some c) (h : Yields (expr c) env s text s') :
    Spells expr env n [.expr p] s [text] s' := .cons hp h .nil

theorem children (hcs : ChildrenAt n p start cs) (h : Yields (cs.mapM expr) env s texts s') :
    Spells expr env n (childParts p start cs.length) s texts s' := by
  induction cs generalizing start s texts with
  | nil =>
    obtain ⟨rfl, rfl⟩ := yields_mapM_nil.mp h
    exact .nil
  | cons c cs ih =>
    obtain ⟨text, t, rest, htext, hrest, rfl⟩ := yields_mapM_cons.mp h
    rw [length_cons, childParts_succ]
    exact .cons hcs.head htext (ih hcs.tail hrest)

theorem all (h : Yields (n.inner.mapM expr) env s texts s') :
    Spells expr env n (allParts n) s texts s' := children childrenAt_self h

theorem first (hn : n.inner = c :: rest) (h : Yields (expr c) env s text s') :
    Spells expr env n (firstPart n) s [text] s' := by
  simpa [firstPart, hn] using one (p := [0]) (by simp [hn]) h

theorem none (hn : n.inner = []) : Spells expr env n (firstPart n) s [] s := by
  simpa [firstPart, hn] using nil

end Spells

theorem spells_firstText (h : Yields (firstText expr n) env s text s') :
    ∃ texts, Spells expr env n (firstPart n) s texts s' ∧ text = texts.headD "" := by
  unfold firstText at h
  split at h
  · next hn => exact ⟨_, .first hn h, rfl⟩
  · next hn =>
    obtain ⟨rfl, rfl⟩ := yields_pure.mp h
    exact ⟨[], .none hn, rfl⟩

theorem spells_pair (hn : n.inner = [a, b])
    (ha : Yields (expr a) env s l t) (hb : Yields (expr b) env t r s') :
    Spells expr env n (exactParts 2 n) s [l, r] s' := by
  have hpair : Spells expr env n [.expr [0], .expr [1]] s [l, r] s' :=
    .cons (by simp [hn]) ha (.one (by simp [hn]) hb)
  simpa [exactParts, allParts, childParts, range', hn] using hpair

theorem exactParts_two (hn : ∀ a b, n.inner = [a, b] → False) : exactParts 2 n = [] := by
  refine if_neg fun hlength => ?_
  obtain ⟨a, b, hab⟩ := length_eq_two.mp hlength
  exact hn a b hab

/-- What is done before the parts are written: something is reported, or an explicit release gives the
reference of a variable away. -/
inductive Noted (n : Node) (s : State) : State → Prop
  | nothing : Noted n s s
  | warned (text : String) : Noted n s t →
      Noted n s { t with diagnostics := t.diagnostics ++ [text] }
  | failed (text : String) : Noted n s t → Noted n s { t with errors := t.errors ++ [text] }
  | consumed {t : State} (name : Name) : n.kind = "ObjCMessageExpr" → n.selector = "release" → Noted n s t →
      Noted n s (t.consume name)

theorem Noted.trans (h : Noted n s t) (h' : Noted n t u) : Noted n s u := by
  induction h' with
  | nothing => exact h
  | warned text _ ih => exact .warned text ih
  | failed text _ ih => exact .failed text ih
  | consumed name hkind hselector _ ih => exact .consumed name hkind hselector ih

theorem noted_of_pure (h : Yields (pure r) env s r' s') : Noted n s s' := by
  rw [(yields_pure.mp h).2]
  exact .nothing

theorem noted_of_noteRelease (hkind : n.kind = "ObjCMessageExpr")
    (h : Yields (noteRelease n) env s () s') : Noted n s s' := by
  unfold noteRelease at h
  split at h
  · split at h
    · next hrelease =>
      have hreceiver : ∀ receiver : Node, Yields (do
          if receiver.kind = "DeclRefExpr" then
            let name ← receiver.referencedName
            if name.holds && name != "self" then
              if ← (← get).checkTracked name then modify (·.consume name) : Lower Unit) env s () s' →
          Noted n s s' := by
        intro receiver h
        split at h
        · obtain ⟨name, -, h⟩ := yields_liftM_bind.mp h
          split at h
          · obtain ⟨isTracked, -, h⟩ := yields_liftM_bind.mp (yields_get_bind.mp h)
            split at h
            · rw [yields_modify.mp h]
              exact .consumed name hkind (by simpa using hrelease) .nothing
            · exact noted_of_pure h
          · exact noted_of_pure h
        · exact noted_of_pure h
      dsimp only at h
      split at h
      · obtain ⟨receiver, -, h⟩ := yields_liftM_bind.mp h
        exact hreceiver receiver h
      · exact hreceiver _ h
    · exact noted_of_pure h
  · exact noted_of_pure h

theorem noted_of_warned [Decidable p] (h : Yields (if p then warn message >>= g else g ()) env s r s') :
    ∃ t, Noted n s t ∧ Yields (g ()) env t r s' := by
  split at h
  · exact ⟨_, .warned message .nothing, yields_modify_bind.mp h⟩
  · exact ⟨s, .nothing, h⟩

inductive Copied (source : String) (n : Node) (offset length : Json) : List String → String → Prop
  | intro {i l : Int} {use copy : String} {patches : List Patch} : byteCount offset = .ok i →
      byteCount length = .ok l → macroText source i l = .ok use →
      patches.map (fun p => (p.start + i, p.stop + i)) = (patchedIn [] [] n).2.reverse →
      applyPatches use patches = .ok copy → Copied source n offset length (patches.map Patch.text) copy

structure Patches (expr : Node → Lower String) (env : Env) (n : Node) (offset : Int)
    (seen : List (Int × Int)) (patched : List Position × List (Int × Int)) (s : State)
    (r : List Patch × List (Int × Int)) (s' : State) : Prop where
  spells : Spells expr env n (patched.1.map .expr) s (r.1.map Patch.text) s'
  seen_eq : r.2 = patched.2
  ranges : r.2 = (r.1.map fun p => (p.start + offset, p.stop + offset)).reverse ++ seen

mutual

theorem patches_of_patchesIn : (c : Node) → (p : Position) → n.part? p = some c →
    {seen : List (Int × Int)} → {s s' : State} → {r : List Patch × List (Int × Int)} →
    Yields (patchesIn expr offset seen c) env s r s' →
    Patches expr env n offset seen (patchedIn p seen c) s r s'
  | .mk a ns, p, hp, seen, s, s', r, h => by
    rw [patchesIn] at h
    obtain ⟨range, hrange, h⟩ := yields_liftM_bind.mp h
    rw [patchedIn, hrange]
    cases range with
    | none => exact patches_of_patchesInAll ns p 0 (childrenAt_inner hp) h
    | some range =>
      dsimp only at h ⊢
      by_cases hseen : seen.contains range
      · rw [if_pos hseen] at h ⊢
        exact patches_of_patchesInAll ns p 0 (childrenAt_inner hp) h
      · rw [if_neg hseen] at h ⊢
        obtain ⟨text, htext, rfl⟩ := yields_bind_pure.mp h
        exact ⟨.one hp htext, rfl, by simp⟩

theorem patches_of_patchesInAll : (cs : List Node) → (p : Position) → (i : Nat) →
    ChildrenAt n p i cs → {seen : List (Int × Int)} → {s s' : State} →
    {r : List Patch × List (Int × Int)} → Yields (patchesInAll expr offset seen cs) env s r s' →
    Patches expr env n offset seen (patchedInAll p i seen cs) s r s'
  | [], p, i, _, seen, s, s', r, h => by
    rw [patchesInAll] at h
    obtain ⟨rfl, rfl⟩ := yields_pure.mp h
    exact ⟨.nil, rfl, rfl⟩
  | c :: cs, p, i, hcs, seen, s, s', r, h => by
    rw [patchesInAll] at h
    obtain ⟨first, t, hfirst, h⟩ := yields_bind.mp h
    obtain ⟨others, hothers, rfl⟩ := yields_bind_pure.mp h
    have hfirst := patches_of_patchesIn c (p ++ [i]) hcs.head hfirst
    have hothers : Patches expr env n offset first.2 _ t others _ :=
      patches_of_patchesInAll cs p (i + 1) hcs.tail hothers
    rw [patchedInAll, ← hfirst.seen_eq]
    refine ⟨?_, hothers.seen_eq, ?_⟩
    · simpa using hfirst.spells.append hothers.spells
    · rw [hothers.ranges, hfirst.ranges]
      simp

end

theorem copied_of_yields (h : Yields (copyMacro expr source n offset length) env s copy s') :
    (copy = none ∧ s' = s ∧ macroParts? source n offset length = none) ∨
      ∃ text ps texts, copy = some text ∧ macroParts? source n offset length = some ps ∧
        Spells expr env n ps s texts s' ∧ Copied source n offset length texts text := by
  obtain ⟨i, hi, h⟩ := yields_liftM_bind.mp h
  obtain ⟨l, hl, h⟩ := yields_liftM_bind.mp h
  obtain ⟨use, huse, h⟩ := yields_liftM_bind.mp h
  obtain ⟨isIncluded, hincluded, h⟩ := yields_liftM_bind.mp h
  simp only [macroParts?, isIncludedConstant, hi, hl, huse, hincluded]
  split at h
  · next hconstant =>
    obtain ⟨rfl, rfl⟩ := yields_pure.mp h
    exact .inl ⟨rfl, rfl, if_pos hconstant⟩
  · next hconstant =>
    obtain ⟨patches, t, hpatches, h⟩ := yields_bind.mp h
    obtain ⟨copy, hcopy, h⟩ := yields_liftM_bind.mp h
    obtain ⟨rfl, rfl⟩ := yields_pure.mp h
    have hpatches := patches_of_patchesIn n [] Node.part_nil hpatches
    refine .inr ⟨copy, _, _, rfl, if_neg hconstant, hpatches.spells, .intro hi hl huse ?_ hcopy⟩
    rw [← hpatches.seen_eq, hpatches.ranges]
    simp

theorem copied_of_copyExpr (h : Yields (copyExpr? expr n) env s copy s') :
    (copy = none ∧ s' = s ∧ copyParts? env n = none) ∨
      ∃ text ps texts source use, copy = some text ∧ copyParts? env n = some ps ∧
        Spells expr env n ps s texts s' ∧ env.source = some source ∧ macroUse? n = .ok (some use) ∧
        Copied source n use.1 use.2 texts text := by
  unfold copyParts?
  rw [copyExpr?, yields_read_bind] at h
  cases hsource : env.source with
  | none =>
    simp only [hsource] at h
    obtain ⟨rfl, rfl⟩ := yields_pure.mp h
    exact .inl ⟨rfl, rfl, rfl⟩
  | some source =>
    simp only [hsource] at h
    obtain ⟨use, huse, h⟩ := yields_liftM_bind.mp h
    rw [huse]
    cases use with
    | none =>
      obtain ⟨rfl, rfl⟩ := yields_pure.mp h
      exact .inl ⟨rfl, rfl, rfl⟩
    | some use =>
      rcases copied_of_yields h with hnone | ⟨text, ps, texts, hcopy, hps, hspells, hcopied⟩
      · exact .inl hnone
      · exact .inr ⟨text, ps, texts, source, use, hcopy, hps, hspells, rfl, rfl, hcopied⟩

inductive Message (env : Env) (n : Node) (f : String) : List String → String → Prop
  | toObject {cast self value : String} {args : List String} :
      (cast = "" ∨ ∃ own, resultCast n own = .ok cast) →
      ((∃ cls, self = if definingClass env.module cls n.selector = cls then ""
          else "(" ++ pointerTo (definingClass env.module cls n.selector) ++ ")") ∨
        ∃ a ∈ inlineAccessors, self = "(" ++ pointerTo a.cls ++ ")") →
      Message env n f (value :: args) (cast ++ callWith f (self ++ value) args)
  | toNothing {cast : String} {args : List String} :
      (cast = "" ∨ ∃ own, resultCast n own = .ok cast) →
      Message env n f args (cast ++ callWith f "" args)
  | toSuper {type : SourceType} {args : List String} : resultType n = .ok type →
      Message env n f args ((if type.isObject then "(" ++ pointerTo env.cls.name ++ ")" else "")
        ++ callWith f ("(" ++ pointerTo ((stated? env.cls.superclass).getD env.root) ++ ")self") args)
  | toClass : Message env n f args (f ++ "(" ++ Text.join ", " args ++ ")")

def Sent (expr : Node → Lower String) (env : Env) (n : Node) (f : String) (ps : List Part) (s : State)
    (text : String) (s' : State) : Prop :=
  ∃ t texts, Noted n s t ∧ Spells expr env n ps t texts s' ∧ Message env n f texts text

theorem yields_args {cs : List Node} {g : List String → String → String} (h : Yields (do
      let args ← cs.mapM expr
      return g args (← sentSelector n)) env s text s') :
    ∃ args, Yields (cs.mapM expr) env s args s' ∧ text = g args (cSelector n.selector.plain) := by
  obtain ⟨args, t, hargs, h⟩ := yields_bind.mp h
  obtain ⟨sel, hsel, h⟩ := yields_liftM_bind.mp h
  obtain ⟨rfl, rfl⟩ := yields_pure.mp h
  exact ⟨args, hargs, by rw [sentSelector_eq_ok hsel]⟩

theorem sent_of_sendSuper (h : Yields (sendSuper expr n) env s text s') :
    Sent expr env n (functionOf ((stated? env.cls.superclass).getD env.root) n) (allParts n) s text s' := by
  obtain ⟨type, htype, h⟩ := yields_liftM_bind.mp (yields_read_bind.mp h)
  obtain ⟨args, hargs, rfl⟩ := yields_args h
  exact ⟨s, args, .nothing, .all hargs, .toSuper htype⟩

theorem sent_of_sendClass (hselector : n.selector ≠ "initialize")
    (h : Yields (sendClass expr n) env s text s') :
    ∃ f, classCallee env n = .ok f ∧ Sent expr env n f (allParts n) s text s' := by
  obtain ⟨type, htype, h⟩ := yields_liftM_bind.mp h
  rw [if_neg (by simpa using hselector)] at h
  obtain ⟨key, hkey, h⟩ := yields_liftM_bind.mp (yields_read_bind.mp h)
  obtain ⟨args, hargs, rfl⟩ := yields_args h
  refine ⟨_, ?_, s, args, .nothing, .all hargs, .toClass⟩
  simp only [classCallee, bind_eq_ok]
  exact ⟨type, htype, key, hkey, rfl⟩

theorem childrenAt_tail : ChildrenAt n [] 1 n.inner.tail := by
  intro i c hc
  rw [getElem?_tail] at hc
  rw [nil_append, Node.part_one, Nat.add_comm]
  exact hc

theorem inner_eq_of_receiver (h : receiver? n = some r) : n.inner[0]? = some r :=
  head?_eq_getElem? ▸ (Option.filter_eq_some_iff.mp h).1

theorem instanceParts_of_some (h : receiver? n = some r) :
    instanceParts env n = .expr [0] :: ((if isTableSend env n then [.own] else [])
      ++ childParts [] 1 n.inner.tail.length) := by
  simp [instanceParts, h]

theorem instanceParts_of_none (h : receiver? n = none) :
    instanceParts env n = childParts [] 1 n.inner.tail.length := by
  simp [instanceParts, h]

theorem spells_instance (hr : receiver? n = some r)
    (htable : ¬ isTableSend env n) (hvalue : Yields (expr r) env s value t)
    (hargs : Yields (n.inner.tail.mapM expr) env t args s') :
    Spells expr env n (instanceParts env n) s (value :: args) s' := by
  rw [instanceParts_of_some hr, if_neg htable]
  exact .cons (by rw [Node.part_one, inner_eq_of_receiver hr]) hvalue (.children childrenAt_tail hargs)

theorem sent_of_sendInline {r : Node} {accessor : InlineAccessor} (hr : receiver? n = some r)
    (htable : ¬ isTableSend env n) (haccessor : accessor ∈ inlineAccessors)
    (h : Yields (sendInline expr n r accessor) env s text s') :
    Sent expr env n (inlineFunction accessor n) (instanceParts env n) s text s' := by
  obtain ⟨cast, hcast, h⟩ := yields_liftM_bind.mp h
  obtain ⟨value, t, hvalue, h⟩ := yields_bind.mp h
  obtain ⟨args, hargs, rfl⟩ := yields_args h
  exact ⟨s, _, .nothing, spells_instance hr htable hvalue hargs,
    .toObject (.inr ⟨_, hcast⟩) (.inr ⟨accessor, haccessor, rfl⟩)⟩

theorem sent_of_sendKnown {r : Node} {cls : Name} (hr : receiver? n = some r)
    (htable : ¬ isTableSend env n) (h : Yields (sendKnown expr n r cls) env s text s') :
    Sent expr env n (functionOf (definingClass env.module cls n.selector) n) (instanceParts env n) s
      text s' := by
  obtain ⟨cast, hcast, h⟩ := yields_liftM_bind.mp (yields_read_bind.mp h)
  obtain ⟨value, t, hvalue, h⟩ := yields_bind.mp h
  obtain ⟨args, hargs, rfl⟩ := yields_args h
  exact ⟨s, _, .nothing, spells_instance hr htable hvalue hargs,
    .toObject (.inr ⟨_, hcast⟩) (.inl ⟨cls, rfl⟩)⟩

theorem sent_of_sendDirect (htable : ¬ isTableSend env n)
    (h : Yields (sendDirect expr n (receiver? n)) env s text s') :
    ∃ cls, assumedClass env n = .ok cls ∧
      Sent expr env n (functionOf (definingClass env.module cls n.selector) n) (instanceParts env n) s
        text s' := by
  unfold assumedClass
  rw [sendDirect, yields_read_bind] at h
  cases hr : receiver? n with
  | none =>
    rw [hr] at h
    dsimp only at h
    rw [yields_pure_bind] at h
    obtain ⟨t, hnoted, h⟩ := noted_of_warned (n := n) h
    obtain ⟨args, hargs, rfl⟩ := yields_args (yields_pure_bind.mp h)
    rw [instanceParts_of_none hr, ← String.empty_append (s := callWith _ _ _)]
    exact ⟨_, rfl, t, args, hnoted, .children childrenAt_tail hargs, .toNothing (.inl rfl)⟩
  | some r =>
    rw [hr] at h
    obtain ⟨cls, hcls, h⟩ := yields_liftM_bind.mp h
    obtain ⟨t, hnoted, h⟩ := noted_of_warned (n := n) h
    obtain ⟨value, u, hvalue, h⟩ := yields_bind.mp h
    obtain ⟨args, hargs, rfl⟩ := yields_args (yields_pure_bind.mp h)
    rw [← String.empty_append (s := callWith _ _ _)]
    exact ⟨cls, hcls, t, _, hnoted, spells_instance hr htable hvalue hargs,
      .toObject (.inl rfl) (.inl ⟨cls, rfl⟩)⟩

def spelledKinds : List String :=
  ["BlockExpr", "ImplicitCastExpr", "ObjCBridgedCastExpr", "CStyleCastExpr", "ParenExpr",
   "ObjCMessageExpr", "ObjCIvarRefExpr", "DeclRefExpr", "MemberExpr", "BinaryOperator",
   "CompoundAssignOperator", "UnaryOperator", "ConditionalOperator", "IntegerLiteral",
   "FloatingLiteral", "CharacterLiteral", "StringLiteral", "ObjCStringLiteral",
   "ObjCBoolLiteralExpr", "ObjCBoxedExpr", "ObjCArrayLiteral", "ObjCDictionaryLiteral", "GNUNullExpr",
   "CXXNullPtrLiteralExpr", "CallExpr", "ArraySubscriptExpr", "CompoundLiteralExpr", "InitListExpr",
   "UnaryExprOrTypeTraitExpr", "RecoveryExpr"]

abbrev traitName (n : Node) : Name := n.attrs.name.getD "sizeof"

abbrev ivarName (decl : DeclRef) : Name := decl.name.getD ""

inductive Wording (env : Env) (n : Node) : List String → String → Prop
  | first : n.kind ∉ spelledKinds → Wording env n texts (texts.headD "")
  | todo : n.kind ∉ spelledKinds → Wording env n [] ("/* TODO: " ++ n.kind ++ " */")
  | recovery : n.kind = "RecoveryExpr" → Wording env n [] "0"
  | copied :
      env.source = some source → macroUse? n = .ok (some use) →
      Copied source n use.1 use.2 texts text → Wording env n texts text
  | nothing : n.kind ∈ ["ImplicitCastExpr", "BinaryOperator", "CompoundAssignOperator",
      "UnaryOperator", "ConditionalOperator", "CallExpr", "ArraySubscriptExpr"] → Wording env n [] ""
  | paren : n.kind = "ParenExpr" → Wording env n texts ("(" ++ texts.headD "" ++ ")")
  | implicitCast {cast text : String} : n.kind = "ImplicitCastExpr" → implicitCastText n = .ok cast →
      Wording env n [text] (cast ++ text)
  | cast {cast : String} {texts : List String} :
      n.kind ∈ ["ObjCBridgedCastExpr", "CStyleCastExpr"] → castText n = .ok cast →
      Wording env n texts (cast ++ texts.headD "")
  | compound : n.kind = "CompoundLiteralExpr" →
      n.qualType = .ok type → Wording env n texts (s!"({type})" ++ texts.headD "")
  | null : n.kind ∈ ["CStyleCastExpr", "GNUNullExpr", "CXXNullPtrLiteralExpr", "ObjCBoxedExpr",
      "BlockExpr"] → Wording env n [] nullPointer
  | reference : n.kind = "DeclRefExpr" → n.referencedName = .ok name →
      name.textOr .wrongValue = .ok text → Wording env n [] text
  | member : n.kind = "MemberExpr" → Wording env n texts
      (texts.headD "" ++ (if n.attrs.isArrow then s!"->{n.name}" else s!".{n.name}"))
  | binary : n.kind ∈ ["BinaryOperator", "CompoundAssignOperator"] →
      Wording env n [left, right] s!"{left} {n.opcode} {right}"
  | unary {op text : String} : n.kind = "UnaryOperator" → n.opcode.textOr .wrongValue = .ok op →
      Wording env n [text] (if n.attrs.isPostfix then text ++ op else op ++ text)
  | conditional {cond yes no : String} : n.kind = "ConditionalOperator" →
      Wording env n [cond, yes, no] (cond ++ " ? " ++ yes ++ " : " ++ no)
  | call : n.kind = "CallExpr" →
      Wording env n (function :: args) (function ++ "(" ++ Text.join ", " args ++ ")")
  | subscript : n.kind = "ArraySubscriptExpr" →
      Wording env n [array, index] (array ++ "[" ++ index ++ "]")
  | items : n.kind = "InitListExpr" →
      Wording env n texts ("\x7b" ++ Text.join ", " texts ++ "\x7d")
  | trait : n.kind = "UnaryExprOrTypeTraitExpr" →
      Wording env n [text] (s!"{traitName n}(" ++ text ++ ")")
  | traitOfType : n.kind = "UnaryExprOrTypeTraitExpr" →
      n.attrs.argType.get = .ok type → stated? type.qual = some q →
      Wording env n [] s!"{traitName n}({q})"
  | traitOfNothing : n.kind = "UnaryExprOrTypeTraitExpr" →
      Wording env n [] s!"{traitName n}(/* unknown */)"
  | value {d text : String} {s : State} : n.kind ∈ ["ConstantExpr", "IntegerLiteral",
      "FloatingLiteral", "StringLiteral"] → d ∈ ["0", "0.0", "\"\""] →
      Yields (valueText d n.attrs.value) env s text s → Wording env n [] text
  | char {text : String} {s : State} : n.kind = "CharacterLiteral" →
      Yields (charText n.attrs.value) env s text s → Wording env n [] text
  | bool : n.kind = "ObjCBoolLiteralExpr" → Wording env n [] (boolText n.attrs.value)
  | boxedLiteral : n.kind = "ObjCBoxedExpr" →
      child ∈ n.inner → child.descend (fun a => a.kind == "ImplicitCastExpr") = .ok leaf →
      Yields (boxedLiteral? leaf) env s (some text) s → Wording env n [] text
  | boxed {box : BoxKind} {text : String} : n.kind = "ObjCBoxedExpr" →
      Wording env n [text] (match box with
        | .float => "OZQ31_fixedWithFloat_((float)(" ++ text ++ "))"
        | .int => "OZQ31_fixedWithInt32_((int32_t)(" ++ text ++ "))")
  | ivar : n.kind = "ObjCIvarRefExpr" → n.attrs.decl.get = .ok decl →
      Wording env n [] s!"self->{ivarPath env.module env.cls (ivarName decl)}{ivarName decl}"
  | refusedIvar : n.kind = "ObjCIvarRefExpr" → n.attrs.decl.get = .ok decl →
      Wording env n [] s!"/* access error: {ivarName decl} */"
  | otherIvar : n.kind = "ObjCIvarRefExpr" →
      n.attrs.decl.get = .ok decl → Wording env n [text] (text ++ s!"->{ivarName decl}")
  | message : n.kind = "ObjCMessageExpr" →
      callee env n = .ok f → Message env n f texts text → Wording env n texts text
  | refused : n.kind = "ObjCMessageExpr" → Wording env n [] ""
  | comment : n.kind = "BlockExpr" →
      text ∈ ["/* TODO: empty BlockExpr */", "/* TODO: BlockExpr without BlockDecl */"] →
      Wording env n [] text

inductive Interned (n : Node) (literal : String) (s : State) : String → State → Prop
  | known : s.literals.find? literal = some name → Interned n literal s name s
  | new : s.literals.find? literal = none →
      n.attrs.loc.get = .ok place →
      name = placeName "_oz_str" (position? place) s.literals.entries.length → Noted n s t →
      Interned n literal s name { t with
        literals := t.literals.set literal name
        strings := t.strings ++ [stringConstant name literal] }

def blockHead (result name params : String) : String :=
  "static " ++ result ++ " " ++ name ++ "(" ++ params ++ ")\n"

inductive Defined (below : Below) (env : Env) (n : Node) (s : State) : String → State → Prop
  | intro {place : Place} {t u : State} {name result params : String} {code : Code} :
      n.attrs.loc.get = .ok place → Noted n s t →
      (code = .block 0 [] ∧ u = t ∨ ∃ body ∈ Node.preorderList n.inner,
        Yields (asOwnFunction (lowerFunctionBody below [] body)) env t code u) →
      n.kind = "BlockExpr" → name = placeName "_oz_block" (position? place) s.blocks.length →
      Defined below env n s name { u with
        blocks := u.blocks ++ [Text.trimRightBy (· == '\n') (blockHead result name params ++ code.render)] }

/-- The literal of a collection: the function that makes it, its elements as they are written and as
they stand in the buffer, and how many there are. -/
inductive Collection (n : Node) : TempKind → String → List String → List String → Nat → Prop
  | array : n.kind = "ObjCArrayLiteral" →
      Collection n .array "OZArray_initWithItems(" refs refs refs.length
  | dictionary {pairs : List (String × String)} : n.kind = "ObjCDictionaryLiteral" →
      Collection n .dictionary "OZDictionary_initWithKeysValues("
        (pairs.flatMap fun pair => [pair.1, pair.2]) (pairs.map (·.1) ++ pairs.map (·.2)) pairs.length

inductive Expressed (below : Below) (env : Env) (n : Node) : State → String → State → Prop
  | spelt :
      exprParts env n = ps → Noted n s t → Spells below.expr env n ps t texts s' →
      Wording env n texts text → Expressed below env n s text s'
  | table {s t u s' : State} {r : Node} {cast value : String} {args : List String} :
      n.kind = "ObjCMessageExpr" → callee env n = .ok (tableMacro n) → isTableSend env n →
      exprParts env n = .expr [0] :: .own :: childParts [] 1 n.inner.tail.length →
      receiver? n = some r → resultCast n (pointerTo env.root) = .ok cast → Noted n s t →
      Yields (below.expr r) env t value u →
      Yields (n.inner.tail.mapM below.expr) env { u with
        temps := u.temps + 1
        pending := u.pending ++ [receiverDecl env.root (TempKind.receiver.nameOf u.temps) value] }
        args s' →
      Expressed below env n s
        (cast ++ callWith (tableMacro n) (TempKind.receiver.nameOf u.temps) args) s'
  | collection {s t : State} {kind : TempKind} {f : String} {items refs : List String} {count : Nat} :
      exprParts env n = allParts n ++ [.own] → Collection n kind f items refs count →
      Yields (n.inner.mapM (keptRef below.expr)) env { s with temps := s.temps + 1 } items t →
      Expressed below env n s (f ++ kind.nameOf s.temps ++ ", " ++ toString count ++ ")") { t with
        pending := t.pending ++ [bufferDecl env.root (kind.nameOf s.temps) refs] }
  | string : exprParts env n = [] →
      Interned n literal s name s' → n.kind = "ObjCStringLiteral" →
      Expressed below env n s ("(struct OZString *)&" ++ name) s'
  | block : exprParts env n = [] → Defined below env n s name s' →
      Expressed below env n s name s'

theorem expressed_pure (hparts : exprParts env n = []) (hwording : Wording env n [] r)
    (h : Yields (pure r) env s text s') : Expressed below env n s text s' := by
  obtain ⟨rfl, rfl⟩ := yields_pure.mp h
  exact .spelt hparts .nothing .nil hwording

theorem expressed_fail (hparts : exprParts env n = []) (hwording : Wording env n [] r) (hnoted : Noted n s t)
    (h : Yields (do fail message; return r) env t text s') : Expressed below env n s text s' := by
  obtain ⟨rfl, rfl⟩ := yields_fail_pure.mp h
  exact .spelt hparts (.failed _ hnoted) .nil hwording

theorem head_eq_of_ivarBase (h : ivarBase? n = .ok (some base)) : n.inner.head? = some base := by
  unfold ivarBase? at h
  split at h
  · next c rest hn =>
    split at h
    · cases h
    · simp only [bind_eq_ok, pure_eq_ok] at h
      obtain ⟨_, _, _, _, h⟩ := h
      split at h
      · cases h
      · cases h
        rw [hn, head?_cons]
  · cases h

theorem expressed_ivar (hkind : n.kind = "ObjCIvarRefExpr") (hparts : exprParts env n = ivarParts env n)
    (h : Yields (lowerIvar below.expr n) env s text s') : Expressed below env n s text s' := by
  obtain ⟨decl, hdecl, h⟩ := yields_liftM_bind.mp (yields_read_bind.mp h)
  obtain ⟨base, hbase, h⟩ := yields_liftM_bind.mp h
  simp only [ivarParts, isIvarRefused, hbase, hdecl] at hparts
  cases base with
  | none => exact expressed_pure hparts (.ivar hkind hdecl) h
  | some base =>
    dsimp only at h hparts
    split at h
    · next hrefused =>
      rw [hrefused] at hparts
      exact expressed_fail hparts (.refusedIvar hkind hdecl) .nothing h
    · next hrefused =>
      rw [hrefused] at hparts
      obtain ⟨value, hvalue, rfl⟩ := yields_bind_pure.mp h
      refine .spelt hparts .nothing (.one ?_ hvalue) (.otherIvar hkind hdecl)
      rw [Node.part_one, ← head?_eq_getElem?, head_eq_of_ivarBase hbase]

theorem pseudoParts_of_some (h : pseudoObject? n = some c) :
    ∃ i, n.inner[i]? = some c ∧ pseudoParts n = [.expr [i]] := by
  simp only [pseudoObject?, Option.orElse_eq_orElse, Option.orElse_eq_or, Option.or_eq_some_iff,
    find?_eq_bind_findIdx?_getElem?] at h
  unfold pseudoParts lastMessage?
  cases hi : n.inner.reverse.findIdx? fun c =>
      (c.unwrap ["ImplicitCastExpr", "ExprWithCleanups"]).kind == "ObjCMessageExpr" with
  | some i =>
    obtain ⟨hlt, -⟩ := findIdx?_eq_some_iff_getElem.mp hi
    rw [hi, Option.bind_some, getElem?_reverse (by simpa using hlt)] at h
    refine ⟨n.inner.length - 1 - i, ?_, rfl⟩
    cases h with
    | inl h => exact h
    | inr h =>
      rw [length_reverse] at hlt
      exact absurd h.1 (by simp; omega)
  | none =>
    rw [hi] at h
    have hhead : n.inner.head? = some c := by simpa using h
    refine ⟨0, head?_eq_getElem? ▸ hhead, ?_⟩
    cases hn : n.inner with
    | nil => simp [hn] at hhead
    | cons c rest => simp [firstPart, hn]

theorem pseudoParts_of_none (h : pseudoObject? n = none) : pseudoParts n = [] := by
  simp only [pseudoObject?, Option.orElse_eq_orElse, Option.orElse_eq_or, Option.or_eq_none_iff,
    head?_eq_none_iff] at h
  simp [pseudoParts, lastMessage?, firstPart, h.2]

theorem expressed_pseudo (hkind : n.kind ∉ spelledKinds) (hparts : exprParts env n = pseudoParts n)
    (h : Yields (match pseudoObject? n with
      | some c => below.expr c
      | none => pure "") env s text s') : Expressed below env n s text s' := by
  split at h
  · next c hc =>
    obtain ⟨i, hi, hpseudo⟩ := pseudoParts_of_some hc
    exact .spelt (hparts.trans hpseudo) .nothing (.one (by rw [Node.part_one, hi]) h) (.first hkind)
  · next hc => exact expressed_pure (hparts.trans (pseudoParts_of_none hc)) (.first hkind) h

theorem expressed_trait (hkind : n.kind = "UnaryExprOrTypeTraitExpr")
    (hparts : exprParts env n = traitParts n) (h : Yields (traitText below.expr n) env s text s') :
    Expressed below env n s text s' := by
  obtain ⟨type, htype, h⟩ := yields_liftM_bind.mp h
  simp only [traitParts, htype] at hparts
  split at h
  · next hstated =>
    rw [hstated] at hparts
    exact expressed_pure hparts (.traitOfType hkind htype hstated) h
  · next hstated hn =>
    obtain ⟨value, hvalue, rfl⟩ := yields_bind_pure.mp h
    rw [hstated] at hparts
    exact .spelt hparts .nothing (.first hn hvalue) (.trait hkind)
  · next hstated hn =>
    obtain ⟨rfl, rfl⟩ := yields_pure.mp h
    rw [hstated] at hparts
    exact .spelt hparts .nothing (.none hn) (.traitOfNothing hkind)

theorem yields_bind_discard {e : Except Fault α}
    (h : Yields (discard (liftM e : Lower α) >>= fun _ => g) env s r s') : Yields g env s r s' := by
  obtain ⟨_, t, ht, hg⟩ := yields_bind.mp h
  obtain ⟨_, ht⟩ := yields_discard.mp ht
  rwa [(yields_liftM.mp ht).2] at hg

theorem yields_boxedLiteral
    (h : Yields (boxedLiteral? leaf) env s r s') : s' = s ∧ r.isSome = isBoxedLiteral leaf := by
  unfold boxedLiteral? at h
  unfold isBoxedLiteral
  dsimp only at h
  split at h <;> rename_i hkind
  case h_2 =>
    obtain ⟨v, -, h⟩ := yields_liftM_bind.mp h
    obtain ⟨rfl, rfl⟩ := yields_pure.mp h
    simp [hkind]
  all_goals
    obtain ⟨rfl, rfl⟩ := yields_pure.mp h
    simp_all

theorem expressed_boxed (hkind : n.kind = "ObjCBoxedExpr") (hparts : exprParts env n = boxedParts n)
    (h : Yields (lowerBoxed below.expr n) env s text s') : Expressed below env n s text s' := by
  unfold lowerBoxed at h
  unfold boxedParts at hparts
  split at h
  · next hn =>
    simp only [hn] at hparts
    exact expressed_fail hparts (.null (by simp [hkind])) .nothing h
  · next child rest hn =>
    replace h := yields_bind_discard h
    obtain ⟨leaf, hleaf, hboxed⟩ := yields_liftM_bind.mp h
    obtain ⟨literal, u, hliteral, h⟩ := yields_bind.mp hboxed
    clear hboxed
    obtain ⟨rfl, hsome⟩ := yields_boxedLiteral hliteral
    simp only [hn, hleaf, ← hsome] at hparts
    cases literal with
    | some literal =>
      obtain ⟨rfl, rfl⟩ := yields_pure.mp h
      exact .spelt hparts .nothing .nil (.boxedLiteral hkind (by simp [hn]) hleaf hliteral)
    | none =>
      obtain ⟨raw, hraw, h⟩ := yields_liftM_bind.mp h
      obtain ⟨type, htype, h⟩ := yields_liftM_bind.mp h
      have hstring : hasStringType child = isStringType type := by
        cases raw <;> simp_all [hasStringType, Json.textOr]
      simp only [hstring, Option.isSome_none, Bool.false_or] at hparts
      split at h
      · next hcontent =>
        rw [if_pos hcontent] at hparts
        exact expressed_fail hparts (.null (by simp [hkind])) .nothing h
      · next hcontent =>
        rw [if_neg hcontent] at hparts
        obtain ⟨u, hnoted, h⟩ := noted_of_warned (n := n) h
        obtain ⟨value, hvalue, rfl⟩ := yields_bind_pure.mp h
        exact .spelt hparts hnoted (.one (by simp [hn]) hvalue) (.boxed hkind)

theorem yields_valueText (h : Yields (valueText d value) env s text s') :
    s' = s ∧ (value = none ∧ text = d ∨ value = some (.text text)) := by
  unfold valueText at h
  split at h
  · obtain ⟨rfl, rfl⟩ := yields_pure.mp h
    exact ⟨rfl, .inl ⟨rfl, rfl⟩⟩
  · obtain ⟨rfl, rfl⟩ := yields_pure.mp h
    exact ⟨rfl, .inr rfl⟩
  · exact absurd h yields_throw

theorem yields_charText (h : Yields (charText value) env s text s') : s' = s := by
  unfold charText at h
  split at h
  · split at h <;> exact (yields_pure.mp h).2
  · split at h
    · exact absurd h yields_throw
    · exact (yields_pure.mp h).2
  · exact (yields_pure.mp h).2
  · exact absurd h yields_throw

theorem interned_of_yields
    (h : Yields (internString literal n.attrs.loc) env s name s') : Interned n literal s name s' := by
  rw [internString, yields_get_bind] at h
  split at h
  · next hfound =>
    obtain ⟨rfl, rfl⟩ := yields_pure.mp h
    exact .known hfound
  · next hfound =>
    obtain ⟨place, hplace, h⟩ := yields_liftM_bind.mp h
    dsimp only at h
    obtain ⟨t, hnoted, h⟩ := noted_of_warned (n := n) h
    rw [yields_modify_bind] at h
    obtain ⟨rfl, rfl⟩ := yields_pure.mp h
    exact .new hfound hplace rfl hnoted

theorem expressed_string (hkind : n.kind = "ObjCStringLiteral") (hparts : exprParts env n = [])
    (h : Yields (lowerString n) env s text s') :
    Expressed below env n s text s' := by
  obtain ⟨first, -, h⟩ := yields_liftM_bind.mp h
  obtain ⟨literal, t, hliteral, h⟩ := yields_bind.mp h
  rw [(yields_valueText hliteral).1] at h
  obtain ⟨name, hname, rfl⟩ := yields_bind_pure.mp h
  exact .string hparts (interned_of_yields hname) hkind

theorem pairs_of_yields (h : Yields (keptPairs expr cs) env s r s') :
    ∃ pairs : List (String × String), r = (pairs.map (·.1), pairs.map (·.2)) ∧
      Yields (cs.mapM (keptRef expr)) env s (pairs.flatMap fun pair => [pair.1, pair.2]) s' := by
  induction cs using keptPairs.induct generalizing s s' r with
  | case1 =>
    rw [keptPairs] at h
    obtain ⟨rfl, rfl⟩ := yields_pure.mp h
    exact ⟨[], rfl, rfl⟩
  | case2 key =>
    rw [keptPairs] at h
    obtain ⟨_, _, _, h⟩ := yields_bind.mp h
    exact absurd h yields_throw
  | case3 key value rest ih =>
    rw [keptPairs] at h
    obtain ⟨a, t, ha, h⟩ := yields_bind.mp h
    obtain ⟨b, u, hb, h⟩ := yields_bind.mp h
    obtain ⟨r', v, hr, h⟩ := yields_bind.mp h
    obtain ⟨pairs, rfl, hpairs⟩ := ih hr
    obtain ⟨rfl, rfl⟩ := yields_pure.mp h
    refine ⟨(a, b) :: pairs, rfl, ?_⟩
    exact yields_mapM_cons.mpr ⟨a, t, _, ha, yields_mapM_cons.mpr ⟨b, u, _, hb, hpairs, rfl⟩, rfl⟩

theorem pending_of_yields_addBuffer (h : Yields (addBuffer name refs) env s r s') :
    s' = { s with pending := s.pending ++ [bufferDecl env.root name refs] } :=
  yields_modify.mp (yields_read_bind.mp h)

theorem nameOf_receiver (k : Nat) : TempKind.receiver.nameOf k = "_oz_recv" ++ toString k := by
  rw [TempKind.nameOf, TempKind.stem, TempKind.suffix, String.append_empty]

theorem nameOf_array (k : Nat) : TempKind.array.nameOf k = "_oz_arr_" ++ toString k ++ "_buf" := rfl

theorem nameOf_dictionary (k : Nat) :
    TempKind.dictionary.nameOf k = "_oz_dict_" ++ toString k ++ "_kv" := rfl

theorem expressed_array (hkind : n.kind = "ObjCArrayLiteral")
    (hparts : exprParts env n = allParts n ++ [.own])
    (h : Yields (lowerArray below.expr n) env s text s') : Expressed below env n s text s' := by
  simp only [lowerArray, freshTemp, bind_assoc, yields_get_bind, yields_set_bind, yields_pure_bind] at h
  replace h := yields_bind_children h
  obtain ⟨refs, t, hrefs, h⟩ := yields_bind.mp h
  obtain ⟨_, hu, rfl⟩ := yields_bind_pure.mp h
  rw [pending_of_yields_addBuffer hu, ← nameOf_array]
  exact .collection hparts (.array hkind) hrefs

theorem expressed_dictionary (hkind : n.kind = "ObjCDictionaryLiteral")
    (hparts : exprParts env n = allParts n ++ [.own])
    (h : Yields (lowerDictionary below.expr n) env s text s') : Expressed below env n s text s' := by
  simp only [lowerDictionary, freshTemp, bind_assoc, yields_get_bind, yields_set_bind,
    yields_pure_bind] at h
  replace h := yields_bind_children h
  obtain ⟨r, t, hr, h⟩ := yields_bind.mp h
  obtain ⟨pairs, rfl, hpairs⟩ := pairs_of_yields hr
  obtain ⟨_, hu, rfl⟩ := yields_bind_pure.mp h
  rw [pending_of_yields_addBuffer hu, ← nameOf_dictionary, length_map]
  exact .collection hparts (.dictionary hkind) hpairs

theorem state_of_yields_mapM_liftM {g : α → Except Fault β} {xs : List α}
    (h : Yields (xs.mapM fun x => (liftM (g x) : Lower β)) env s ys s') : s' = s := by
  induction xs generalizing s ys with
  | nil => exact (yields_mapM_nil.mp h).2
  | cons x xs ih =>
    obtain ⟨y, t, ys, hy, hys, -⟩ := yields_mapM_cons.mp h
    rw [ih hys, (yields_liftM.mp hy).2]

theorem defined_of_yields (hkind : n.kind = "BlockExpr")
    (hparts : ∀ body ∈ parts, body ∈ Node.preorderList n.inner)
    (h : Yields (defineBlock below n parts) env s text s') : Defined below env n s text s' := by
  obtain ⟨type, -, h⟩ := yields_liftM_bind.mp h
  obtain ⟨place, hplace, h⟩ := yields_liftM_bind.mp h
  rw [yields_get_bind] at h
  dsimp only at h
  obtain ⟨t, hnoted, h⟩ := noted_of_warned (n := n) h
  obtain ⟨params, u, hparams, h⟩ := yields_bind.mp h
  rw [state_of_yields_mapM_liftM hparams] at h
  split at h
  · next body hlast =>
    obtain ⟨code, v, hcode, h⟩ := yields_bind.mp h
    rw [yields_modify_bind] at h
    obtain ⟨rfl, rfl⟩ := yields_pure.mp h
    refine .intro hplace hnoted (.inr ⟨body, hparts body ?_, hcode⟩) hkind rfl
    exact mem_of_mem_filter (mem_of_getLast? hlast)
  · rw [yields_pure_bind, yields_modify_bind] at h
    obtain ⟨rfl, rfl⟩ := yields_pure.mp h
    exact .intro hplace hnoted (.inl ⟨rfl, rfl⟩) hkind rfl

theorem lowerBlock_cases (hkind : n.kind = "BlockExpr") (h : Yields (lowerBlock below n) env s text s') :
    (text ∈ ["/* TODO: empty BlockExpr */", "/* TODO: BlockExpr without BlockDecl */"] ∧ s' = s) ∨
      (∃ message, text = nullPointer ∧ s' = { s with errors := s.errors ++ [message] }) ∨
      Defined below env n s text s' := by
  unfold lowerBlock at h
  split at h
  · obtain ⟨rfl, rfl⟩ := yields_pure.mp h
    exact .inl ⟨by simp, rfl⟩
  · next decl rest hn =>
    obtain ⟨m, hm, h⟩ := yields_liftM_bind.mp h
    split at h
    · obtain ⟨rfl, rfl⟩ := yields_pure.mp h
      exact .inl ⟨by simp, rfl⟩
    · replace h := yields_bind_children h
      obtain ⟨capture, -, h⟩ := yields_liftM_bind.mp h
      split at h
      · obtain ⟨rfl, rfl⟩ := yields_fail_pure.mp h
        exact .inr (.inl ⟨_, rfl, rfl⟩)
      · refine .inr (.inr (defined_of_yields hkind (fun body hbody => ?_) h))
        have hdecl : decl ∈ n.inner := by simp [hn]
        exact Node.preorder_subset_of_mem hdecl (Node.mem_preorder_of_inner hbody)

theorem expressed_block (hkind : n.kind = "BlockExpr") (hparts : exprParts env n = [])
    (h : Yields (lowerBlock below n) env s text s') : Expressed below env n s text s' := by
  obtain ⟨htext, rfl⟩ | ⟨message, rfl, rfl⟩ | hdefined := lowerBlock_cases hkind h
  · exact .spelt hparts .nothing .nil (.comment hkind htext)
  · exact .spelt hparts (.failed _ .nothing) .nil (.null (by simp [hkind]))
  · exact .block hparts hdefined

theorem expressed_table (hkind : n.kind = "ObjCMessageExpr") (hcallee : callee env n = .ok (tableMacro n))
    (htable : isTableSend env n) (hparts : exprParts env n = instanceParts env n) (hnoted : Noted n s t)
    (h : Yields (sendTable below.expr n (receiver? n)) env t text s') :
    Expressed below env n s text s' := by
  obtain ⟨cast, hcast, h⟩ := yields_liftM_bind.mp (yields_read_bind.mp h)
  cases hr : receiver? n with
  | none =>
    rw [hr] at h
    dsimp only at h
    rw [yields_pure_bind] at h
    obtain ⟨args, hargs, rfl⟩ := yields_args h
    refine .spelt (hparts.trans (instanceParts_of_none hr)) hnoted (.children childrenAt_tail hargs) ?_
    exact .message hkind hcallee (.toNothing (.inr ⟨_, hcast⟩))
  | some r =>
    rw [hr] at h
    obtain ⟨value, u, hvalue, h⟩ := yields_bind.mp h
    simp only [freshTemp, bind_assoc, yields_get_bind, yields_set_bind, yields_pure_bind, addPending,
      yields_modify_bind] at h
    obtain ⟨args, v, hargs, h⟩ := yields_bind.mp h
    obtain ⟨sel, hsel, h⟩ := yields_liftM_bind.mp h
    obtain ⟨rfl, rfl⟩ := yields_pure.mp h
    rw [instanceParts_of_some hr, if_pos htable] at hparts
    rw [sentSelector_eq_ok hsel, ← nameOf_receiver]
    rw [← nameOf_receiver] at hargs
    exact .table hkind hcallee htable hparts hr hcast hnoted hvalue hargs

theorem expressed_instance (hkind : n.kind = "ObjCMessageExpr") (hcallee : callee env n = instanceCallee env n)
    (hparts : exprParts env n = instanceParts env n) (hnoted : Noted n s t)
    (h : Yields (sendInstance below.expr n) env t text s') : Expressed below env n s text s' := by
  obtain ⟨known, hknown, h⟩ := yields_liftM_bind.mp (yields_read_bind.mp h)
  change knownReceiver env.module (receiver? n) = _ at hknown
  have hsent : ∀ f, callee env n = .ok f → Sent below.expr env n f (instanceParts env n) t text s' →
      Expressed below env n s text s' := by
    rintro f hf ⟨u, texts, hnoted', hspells, hmessage⟩
    exact .spelt hparts (hnoted.trans hnoted') hspells (.message hkind hf hmessage)
  have hdirect : dispatchOf env.module n.selector = .direct →
      (∀ cls, assumedClass env n = .ok cls →
        callee env n = .ok (functionOf (definingClass env.module cls n.selector) n)) →
      Yields (sendDirect below.expr n (receiver? n)) env t text s' → Expressed below env n s text s' := by
    intro hdispatch hf h
    obtain ⟨cls, hcls, h⟩ := sent_of_sendDirect (by simp [isTableSend, hdispatch]) h
    exact hsent _ (hf cls hcls) h
  cases known with
  | none =>
    cases hdispatch : dispatchOf env.module n.selector with
    | table =>
      simp only [hdispatch] at h
      refine expressed_table hkind ?_ (by simp [isTableSend, hknown, hdispatch]) hparts hnoted h
      simp [hcallee, instanceCallee, hknown, hdispatch, bind_eq_ok]
    | direct =>
      simp only [hdispatch] at h
      refine hdirect hdispatch (fun cls hcls => ?_) h
      simp [hcallee, instanceCallee, hknown, hdispatch, bind_eq_ok, hcls]
  | some p =>
    obtain ⟨r, cls⟩ := p
    have hr := knownReceiver_eq_some hknown
    have htable : ¬ isTableSend env n := by simp [isTableSend, hknown]
    cases haccessor : inlineAccessor? cls n.selector with
    | some accessor =>
      simp only [Option.bind_some, haccessor, Option.map_some] at h
      refine hsent _ ?_ (sent_of_sendInline hr htable (mem_of_find?_eq_some haccessor) h)
      simp [hcallee, instanceCallee, hknown, haccessor, bind_eq_ok]
    | none =>
      simp only [Option.bind_some, haccessor, Option.map_none] at h
      cases hdispatch : dispatchOf env.module n.selector with
      | table =>
        simp only [hdispatch] at h
        refine hsent _ ?_ (sent_of_sendKnown hr htable h)
        simp [hcallee, instanceCallee, hknown, haccessor, hdispatch, bind_eq_ok]
      | direct =>
        simp only [hdispatch] at h
        refine hdirect hdispatch (fun cls hcls => ?_) h
        simp [hcallee, instanceCallee, hknown, haccessor, hdispatch, bind_eq_ok, hcls]

theorem expressed_message (hkind : n.kind = "ObjCMessageExpr")
    (hparts : exprParts env n = messageParts env n)
    (h : Yields (lowerMessage below.expr n) env s text s') : Expressed below env n s text s' := by
  replace h := yields_bind_discard (yields_bind_discard h)
  obtain ⟨_, t, hnote, h⟩ := yields_bind.mp h
  have hnoted := noted_of_noteRelease hkind hnote
  obtain ⟨kind, hreceiver, h⟩ := yields_liftM_bind.mp h
  rw [messageParts, textOr_eq_ok hreceiver] at hparts
  dsimp only at hparts
  split at h
  · next hsuper =>
    rw [if_pos hsuper] at hparts
    obtain ⟨u, texts, hnoted', hspells, hmessage⟩ := sent_of_sendSuper h
    refine .spelt hparts (hnoted.trans hnoted') hspells (.message hkind ?_ hmessage)
    simp [callee, hreceiver, hsuper, bind_eq_ok]
  · next hsuper =>
    rw [if_neg hsuper] at hparts
    split at h
    · next hclass =>
      rw [if_pos hclass] at hparts
      by_cases hselector : n.selector = "initialize"
      · rw [if_pos (by simp [hselector])] at hparts
        obtain ⟨type, -, h⟩ := yields_liftM_bind.mp h
        dsimp only at h
        rw [if_pos (by simp [hselector])] at h
        exact expressed_fail hparts (.refused hkind) hnoted h
      · rw [if_neg (by simpa using hselector)] at hparts
        obtain ⟨f, hf, u, texts, hnoted', hspells, hmessage⟩ := sent_of_sendClass hselector h
        refine .spelt hparts (hnoted.trans hnoted') hspells (.message hkind ?_ hmessage)
        subst hclass
        simp [callee, hreceiver, hsuper, bind_eq_ok, hf]
    · next hclass =>
      rw [if_neg hclass] at hparts
      refine expressed_instance hkind ?_ hparts hnoted h
      simp [callee, hreceiver, hsuper, hclass, bind, Except.bind]

theorem expressed_operands (hkind : n.kind ∈ ["BinaryOperator", "CompoundAssignOperator"])
    (hparts : exprParts env n = exactParts 2 n) (h : Yields (binaryText below.expr n) env s text s') :
    Expressed below env n s text s' := by
  replace h := yields_bind_children h
  split at h
  · next a b hn =>
    obtain ⟨left, t, hleft, h⟩ := yields_bind.mp h
    obtain ⟨right, hright, rfl⟩ := yields_bind_pure.mp h
    exact .spelt hparts .nothing (spells_pair hn hleft hright) (.binary hkind)
  · next hn =>
    refine expressed_pure (hparts.trans (exactParts_two hn)) (.nothing ?_) h
    simp only [mem_cons, not_mem_nil, or_false] at hkind ⊢
    tauto

theorem expressed_subscript (hkind : n.kind = "ArraySubscriptExpr")
    (hparts : exprParts env n = exactParts 2 n) (h : Yields (subscriptText below.expr n) env s text s') :
    Expressed below env n s text s' := by
  replace h := yields_bind_children h
  split at h
  · next a b hn =>
    obtain ⟨array, t, harray, h⟩ := yields_bind.mp h
    obtain ⟨index, hindex, rfl⟩ := yields_bind_pure.mp h
    exact .spelt hparts .nothing (spells_pair hn harray hindex) (.subscript hkind)
  · next hn => exact expressed_pure (hparts.trans (exactParts_two hn)) (.nothing (by simp [hkind])) h

theorem expressed_conditional (hkind : n.kind = "ConditionalOperator")
    (hparts : exprParts env n = exactParts 3 n) (h : Yields (conditionalText below.expr n) env s text s') :
    Expressed below env n s text s' := by
  replace h := yields_bind_children h
  split at h
  · next a b c hn =>
    obtain ⟨cond, t, hcond, h⟩ := yields_bind.mp h
    obtain ⟨yes, u, hyes, h⟩ := yields_bind.mp h
    obtain ⟨no, hno, rfl⟩ := yields_bind_pure.mp h
    have hspells : Spells below.expr env n [.expr [0], .expr [1], .expr [2]] s [cond, yes, no] s' :=
      .cons (by simp [hn]) hcond (.cons (by simp [hn]) hyes (.one (by simp [hn]) hno))
    refine .spelt hparts .nothing ?_ (.conditional hkind)
    simpa [exactParts, allParts, childParts, range', hn] using hspells
  · next hn =>
    refine expressed_pure (hparts.trans (if_neg fun hlength => ?_)) (.nothing (by simp [hkind])) h
    obtain ⟨a, b, c, habc⟩ := length_eq_three.mp hlength
    exact hn a b c habc

theorem expressed_unary (hkind : n.kind = "UnaryOperator") (hparts : exprParts env n = firstPart n)
    (h : Yields (unaryText below.expr n) env s text s') : Expressed below env n s text s' := by
  unfold unaryText at h
  split at h
  · next a rest hn =>
    split at h
    · next hpostfix =>
      obtain ⟨operand, t, hoperand, h⟩ := yields_bind.mp h
      obtain ⟨op, hop, h⟩ := yields_liftM_bind.mp h
      obtain ⟨rfl, rfl⟩ := yields_pure.mp h
      have hform : Wording env n [operand] _ := .unary hkind hop
      rw [if_pos hpostfix] at hform
      exact .spelt hparts .nothing (.first hn hoperand) hform
    · next hprefix =>
      obtain ⟨op, hop, h⟩ := yields_liftM_bind.mp h
      obtain ⟨operand, hoperand, rfl⟩ := yields_bind_pure.mp h
      have hform : Wording env n [operand] _ := .unary hkind hop
      rw [if_neg hprefix] at hform
      exact .spelt hparts .nothing (.first hn hoperand) hform
  · next hn =>
    obtain ⟨rfl, rfl⟩ := yields_pure.mp h
    exact .spelt hparts .nothing (.none hn) (.nothing (by simp [hkind]))

theorem expressed_call (hkind : n.kind = "CallExpr") (hparts : exprParts env n = allParts n)
    (h : Yields (callText below.expr n) env s text s') : Expressed below env n s text s' := by
  unfold callText at h
  split at h
  · next f args hn =>
    obtain ⟨function, t, hfunction, h⟩ := yields_bind.mp h
    obtain ⟨texts, htexts, rfl⟩ := yields_bind_pure.mp h
    have hall : Yields (n.inner.mapM below.expr) env s (function :: texts) s' := by
      rw [hn]
      exact yields_mapM_cons.mpr ⟨_, _, _, hfunction, htexts, rfl⟩
    exact .spelt hparts .nothing (.all hall) (.call hkind)
  · next hn =>
    have hnone : allParts n = [] := by rw [allParts, hn]; rfl
    exact expressed_pure (hparts.trans hnone) (.nothing (by simp [hkind])) h

theorem expressed_implicitCast (hkind : n.kind = "ImplicitCastExpr")
    (hparts : exprParts env n = firstPart n) (h : Yields (lowerImplicitCast below.expr n) env s text s') :
    Expressed below env n s text s' := by
  unfold lowerImplicitCast at h
  split at h
  · next c rest hn =>
    obtain ⟨cast, hcast, h⟩ := yields_liftM_bind.mp h
    obtain ⟨value, hvalue, rfl⟩ := yields_bind_pure.mp h
    exact .spelt hparts .nothing (.first hn hvalue) (.implicitCast hkind hcast)
  · next hn =>
    obtain ⟨rfl, rfl⟩ := yields_pure.mp h
    exact .spelt hparts .nothing (.none hn) (.nothing (by simp [hkind]))

theorem expressed_around {around : String → String} (hparts : exprParts env n = firstPart n)
    (h : Yields (firstText below.expr n >>= fun value => pure (around value)) env s text s')
    (hwording : ∀ texts, Wording env n texts (around (texts.headD ""))) : Expressed below env n s text s' := by
  obtain ⟨value, hvalue, rfl⟩ := yields_bind_pure.mp h
  obtain ⟨texts, hspells, rfl⟩ := spells_firstText hvalue
  exact .spelt hparts .nothing hspells (hwording texts)

theorem expressed_cast (hkind : n.kind ∈ ["ObjCBridgedCastExpr", "CStyleCastExpr"])
    (hparts : exprParts env n = firstPart n) (h : Yields (lowerCast below.expr n) env s text s') :
    Expressed below env n s text s' := by
  obtain ⟨cast, hcast, h⟩ := yields_liftM_bind.mp h
  exact expressed_around hparts h fun _ => .cast hkind hcast

theorem expressed_value (hkind : n.kind ∈ ["ConstantExpr", "IntegerLiteral",
      "FloatingLiteral", "StringLiteral"]) (hd : d ∈ ["0", "0.0", "\"\""])
    (hparts : exprParts env n = []) (h : Yields (valueText d n.attrs.value) env s text s') :
    Expressed below env n s text s' := by
  obtain rfl := (yields_valueText h).1
  exact .spelt hparts .nothing .nil (.value hkind hd h)

theorem expressed_of_lowerKind (hkind : n.kind ≠ "RecoveryExpr")
    (hparts : exprParts env n = kindParts env n)
    (h : Yields (lowerKind below n) env s text s') : Expressed below env n s text s' := by
  have hfirst : n.kind ∉ spelledKinds → exprParts env n = firstPart n →
      Yields (firstText below.expr n) env s text s' → Expressed below env n s text s' := by
    intro hn hparts h
    obtain ⟨texts, hspells, rfl⟩ := spells_firstText h
    exact .spelt hparts .nothing hspells (.first hn)
  unfold lowerKind at h
  dsimp only at h
  split at h <;> rename_i hk <;> try rw [kindParts, hk] at hparts
  · exact hfirst (by rw [hk]; decide) hparts h
  · exact hfirst (by rw [hk]; decide) hparts h
  · exact expressed_block hk hparts h
  · exact expressed_implicitCast hk hparts h
  · exact expressed_cast (by simp [hk]) hparts h
  · split at h
    · next hnull => exact expressed_pure (hparts.trans (if_pos hnull)) (.null (by simp [hk])) h
    · next hnull => exact expressed_cast (by simp [hk]) (hparts.trans (if_neg hnull)) h
  · exact expressed_around hparts h fun _ => .paren hk
  · exact expressed_message hk hparts h
  · exact expressed_ivar hk hparts h
  · obtain ⟨name, hname, h⟩ := yields_liftM_bind.mp h
    obtain ⟨htext, rfl⟩ := yields_liftM.mp h
    exact .spelt hparts .nothing .nil (.reference hk hname htext)
  · exact expressed_around hparts h fun _ => .member hk
  · exact expressed_operands (by simp [hk]) hparts h
  · exact expressed_operands (by simp [hk]) hparts h
  · exact expressed_unary hk hparts h
  · exact expressed_conditional hk hparts h
  · split at h
    · next hempty =>
      refine expressed_value (by simp [hk]) (by simp) (hparts.trans ?_) h
      exact if_pos hempty
    · exact hfirst (by rw [hk]; decide) hparts h
  · exact expressed_value (by simp [hk]) (by simp) hparts h
  · exact expressed_value (by simp [hk]) (by simp) hparts h
  · obtain rfl := yields_charText h
    exact .spelt hparts .nothing .nil (.char hk h)
  · exact expressed_value (by simp [hk]) (by simp) hparts h
  · exact expressed_string hk hparts h
  · exact expressed_pure hparts (.bool hk) h
  · exact expressed_boxed hk hparts h
  · exact expressed_array hk hparts h
  · exact expressed_dictionary hk hparts h
  · exact expressed_pure hparts (.null (by simp [hk])) h
  · exact expressed_pure hparts (.null (by simp [hk])) h
  · exact expressed_pseudo (by rw [hk]; decide) hparts h
  · exact expressed_call hk hparts h
  · exact expressed_subscript hk hparts h
  · obtain ⟨type, htype, h⟩ := yields_liftM_bind.mp h
    exact expressed_around hparts h fun _ => .compound hk htype
  · replace h := yields_bind_children h
    obtain ⟨texts, htexts, rfl⟩ := yields_bind_pure.mp h
    exact .spelt hparts .nothing (.all htexts) (.items hk)
  · exact expressed_trait hk hparts h
  · have hother : n.kind ∉ spelledKinds := by
      simp only [spelledKinds, mem_cons, not_mem_nil, or_false]
      tauto
    have hparts' : kindParts env n = firstPart n := by
      unfold kindParts
      split <;> first | contradiction | rfl
    split at h
    · next c rest hn =>
      exact .spelt (hparts.trans hparts') .nothing (.first hn h) (.first hother)
    · next hn =>
      obtain ⟨rfl, rfl⟩ := yields_pure.mp h
      exact .spelt (hparts.trans hparts') .nothing (.none hn) (.todo hother)

theorem expressed_of_yields (h : Yields (exprStep below n) env s text s') :
    Expressed below env n s text s' := by
  obtain ⟨m, hm, h⟩ := yields_liftM_bind.mp h
  rw [(Node.check_eq_ok.mp hm).2] at h
  split at h
  · next hkind =>
    obtain ⟨range, -, h⟩ := yields_liftM_bind.mp h
    obtain ⟨loc, -, h⟩ := yields_liftM_bind.mp h
    exact expressed_fail (if_pos hkind) (.recovery hkind) .nothing h
  · next hkind =>
    obtain ⟨copy, t, hcopy, hrest⟩ := yields_bind.mp h
    have hparts : exprParts env n = (copyParts? env n).getD (kindParts env n) := if_neg hkind
    rcases copied_of_copyExpr hcopy with ⟨rfl, rfl, hnone⟩ |
      ⟨copied, ps, texts, source, use, rfl, hps, hspells, hsource, huse, hcopied⟩
    · rw [hnone] at hparts
      exact expressed_of_lowerKind hkind hparts hrest
    · obtain ⟨rfl, rfl⟩ := yields_pure.mp hrest
      rw [hps] at hparts
      exact .spelt hparts .nothing hspells (.copied hsource huse hcopied)

end ObjcLowering.Lowering
