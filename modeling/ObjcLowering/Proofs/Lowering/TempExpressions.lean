import ObjcLowering.Proofs.Lowering.TempQueue

/-!
Every way of writing an expression queues its declarations in order, and its text mentions only queued
variables.
-/

namespace ObjcLowering.Lowering

open Ast Text
open List hiding count head getLast

variable {env : Env}

@[simp] theorem toString_json (j : Json) : toString j = j.plain := rfl

@[simp] theorem toString_text (text : String) : toString text = text := rfl

@[simp] theorem tempsIn_join (texts : List String) :
    tempsIn (join ", " texts) = texts.flatMap tempsIn := by
  unfold join
  induction texts with
  | nil => exact tempsIn_empty
  | cons a texts ih =>
    cases texts with
    | nil => simp
    | cons b texts =>
      rw [String.intercalate_cons_cons]
      simp (disch := simp; decide) only [tempsIn_append_append, tempsIn_append_fixed, ih,
        flatMap_cons]

@[simp] theorem tempsIn_callWith (f first : String) (rest : List String) :
    tempsIn (callWith f first rest) = tempsIn f ++ tempsIn first ++ rest.flatMap tempsIn := by
  have hrest : ∀ front, tempsIn (front ++ String.join (rest.map (", " ++ ·))) =
      tempsIn front ++ rest.flatMap tempsIn := by
    induction rest with
    | nil => simp
    | cons a rest ih =>
      intro front
      have hcons : front ++ String.join ((a :: rest).map (", " ++ ·)) =
          (front ++ ", " ++ a) ++ String.join (rest.map (", " ++ ·)) := by
        simp [String.append_assoc]
      rw [hcons, ih]
      simp (disch := simp; decide)
  rw [callWith]
  simp (disch := simp; decide) only [tempsIn_append_fixed, hrest, tempsIn_append_append]

@[simp] theorem tempsIn_pointerTo (cls : Name) : tempsIn (pointerTo cls) = tempsIn cls.plain := by
  simp (disch := simp; decide) [pointerTo]

theorem Known.mono (h : Known D text) (hDE : D ⊆ E) : Known E text :=
  List.Subset.trans h hDE

theorem known_of_eq_nil (h : tempsIn text = []) : Known E text := by simp [Known, h]

theorem known_nameOf {kind : TempKind} (h : kind.nameOf k ∈ E) : Known E (kind.nameOf k) := by
  simpa [Known] using h

def IsPlainCast (cast : String) : Prop := ∀ text, tempsIn (cast ++ text) = tempsIn text

theorem isPlainCast_empty : IsPlainCast "" := fun text => by rw [String.empty_append]

theorem isPlainCast_of_type (h : tempsIn type = []) : IsPlainCast ("(" ++ type ++ ")") := by
  intro text
  simp (disch := simp; decide) [h]

theorem isPlainCast_ite [Decidable p] (ha : p → IsPlainCast a)
    (hb : ¬ p → IsPlainCast b) : IsPlainCast (if p then a else b) := by
  split
  · next h => exact ha h
  · next h => exact hb h

theorem mem_names_of_answeringClass
    (h : answeringClass? m selector fuel name = some cls) : cls ∈ m.classes.names := by
  induction fuel generalizing name with
  | zero => cases h
  | succ fuel ih =>
    unfold answeringClass? at h
    split at h
    · cases h
    · next c hc =>
      have hname : name ∈ m.classes.names := Table.mem_names.mpr ⟨c, Table.mem_of_find? hc⟩
      split at h
      · cases h
        exact hname
      · split at h
        · exact ih h
        · split at h
          · cases h
            exact hname
          · cases h

section

variable (hn : Discernible env n)

include hn

theorem Discernible.typeOf (h : typeOf n = .ok type) : tempsIn type.cType = [] := by
  obtain ⟨raw, hraw, htype⟩ := bind_eq_ok.mp h
  rw [checked_eq_ok htype]
  exact hn.cType (by decide +kernel) hraw

theorem isPlainCast_castText {cast : String} (h : castText n = .ok cast) :
    IsPlainCast cast := by
  obtain ⟨type, htype, hcast⟩ := bind_eq_ok.mp h
  rw [← pure_eq_ok.mp hcast]
  exact isPlainCast_of_type (hn.typeOf htype)

theorem isPlainCast_implicitCastText {cast : String}
    (h : implicitCastText n = .ok cast) : IsPlainCast cast := by
  obtain ⟨raw, hraw, h⟩ := bind_eq_ok.mp h
  split at h
  · obtain ⟨type, -, h⟩ := bind_eq_ok.mp h
    rw [← pure_eq_ok.mp h]
    refine isPlainCast_ite (fun _ => isPlainCast_of_type ?_) fun _ => isPlainCast_empty
    exact hn.cType (by decide +kernel) hraw
  · rw [← pure_eq_ok.mp h]
    exact isPlainCast_empty

theorem Discernible.className (h : cls ∈ env.module.classes.names) :
    tempsIn cls.plain = [] :=
  hn.env_texts _ (mem_cons_of_mem _ (mem_map_of_mem (by simp [h])))

theorem Discernible.parent :
    tempsIn ((stated? env.cls.superclass).getD env.root).plain = [] := by
  cases hstated : stated? env.cls.superclass with
  | none => exact hn.root
  | some parent =>
    have hparent : env.cls.superclass = some parent := (Option.filter_eq_some_iff.mp hstated).1
    exact hn.env_texts _ (by simp [Env.texts, hparent])

theorem isPlainCast_defining (cls selector : Name) :
    IsPlainCast (if definingClass env.module cls selector = cls then ""
      else "(" ++ pointerTo (definingClass env.module cls selector) ++ ")") := by
  refine isPlainCast_ite (fun _ => isPlainCast_empty) fun hother => isPlainCast_of_type ?_
  rw [tempsIn_pointerTo]
  unfold definingClass at hother ⊢
  cases hanswer : answeringClass? env.module selector (env.module.classes.entries.length + 1) cls with
  | none => simp [hanswer] at hother
  | some d => exact hn.className (mem_names_of_answeringClass hanswer)

theorem isPlainCast_resultCast {own cast : String}
    (h : resultCast n own = .ok cast) : IsPlainCast cast := by
  obtain ⟨type, htype, hcast⟩ := bind_eq_ok.mp h
  obtain ⟨raw, hraw, htype⟩ := bind_eq_ok.mp htype
  rw [← pure_eq_ok.mp hcast, checked_eq_ok htype]
  refine isPlainCast_ite (fun _ => isPlainCast_of_type ?_) fun _ => isPlainCast_empty
  exact hn.cType (by decide +kernel) hraw

end

theorem tempsIn_headD (texts : List String) : tempsIn (texts.headD "") ⊆ texts.flatMap tempsIn := by
  cases texts with
  | nil => simp
  | cons a texts => simp

theorem tempsIn_copies_append (steps : Nat) (text : String) :
    tempsIn (copies steps "base." ++ text) = tempsIn text := by
  unfold copies
  induction steps with
  | zero => simp
  | succ steps ih =>
    rw [replicate_succ, String.join_cons, String.append_assoc, tempsIn_fixed_append (by decide), ih]

theorem tempsIn_ivarPath_append (m : Module) (cls : ClassDecl) (ivar : Name) (text : String) :
    tempsIn (ivarPath m cls ivar ++ text) = tempsIn text := by
  unfold ivarPath
  split
  · exact tempsIn_copies_append _ text
  · rw [String.empty_append]

theorem tempsIn_quoted (c : Char) : tempsIn (.ofList ['\'', c, '\'']) = [] := by
  apply tempsIn_fixed
  rw [String.toList_ofList]
  by_cases hc : c = '_' <;> simp [isFixed, Chars.has, Chars.cut?, Chars.after?, mark, hc]

theorem tempsIn_boolText (value : Option Json) : tempsIn (boolText value) = [] := by
  unfold boolText
  split
  · split <;> decide
  · split <;> decide

theorem tempsIn_nullPointer : tempsIn nullPointer = [] :=
  tempsIn_fixed (isFixed_literal rfl rfl)

theorem tempsIn_charText (hvalue : ∀ v ∈ value, tempsIn v.plain = [])
    (h : Yields (charText value) env s text s') : tempsIn text = [] := by
  have hgiven : tempsIn (value.getD (.int 0)).plain = [] := by
    cases value with
    | none => decide +kernel
    | some v => exact hvalue v rfl
  unfold charText at h
  split at h
  · next i hi =>
    rw [hi] at hgiven
    split at h
    · rw [(yields_pure.mp h).1]
      exact tempsIn_quoted _
    · rw [(yields_pure.mp h).1]
      exact hgiven
  · next x hx =>
    rw [hx] at hgiven
    split at h
    · exact absurd h yields_throw
    · rw [(yields_pure.mp h).1]
      exact hgiven
  · next b hb =>
    rw [hb] at hgiven
    rw [(yields_pure.mp h).1]
    exact hgiven
  · exact absurd h yields_throw

theorem tempsIn_boxedLiteral (hleaf : Discernible env leaf)
    (h : Yields (boxedLiteral? leaf) env s (some text) s') : tempsIn text = [] := by
  have hvalue : ∀ d : Json, tempsIn d.plain = [] → tempsIn (leaf.attrs.value.getD d).plain = [] := by
    intro d hd
    cases hv : leaf.attrs.value with
    | none => exact hd
    | some v => exact hleaf.value hv
  unfold boxedLiteral? at h
  dsimp only at h
  split at h
  · cases (yields_pure.mp h).1
    simp (disch := simp; decide) [hvalue (.text "0") (by decide +kernel)]
  · obtain ⟨v, hv, h⟩ := yields_liftM_bind.mp h
    cases (yields_pure.mp h).1
    have hgiven := hvalue "0.0" (by decide +kernel)
    have hsuffix : tempsIn (v ++ "f") = [] := by
      cases hattr : leaf.attrs.value with
      | none =>
        rw [hattr] at hv
        cases hv
        decide +kernel
      | some j =>
        rw [hattr, Option.getD_some] at hv
        have hj := hleaf.float hattr
        rwa [textOr_eq_ok hv] at hj
    rw [textOr_eq_ok hv, Json.plain] at hgiven
    split
    · simpa (disch := simp; decide) using hgiven
    · generalize v ++ "f" = v at hsuffix
      simpa (disch := simp; decide) using hsuffix
  · cases (yields_pure.mp h).1
    simp (disch := simp; decide) [hvalue (.int 0) (by decide +kernel)]
  · cases (yields_pure.mp h).1
    simp (disch := simp; decide) [tempsIn_boolText]
  · cases (yields_pure.mp h).1

theorem Message.tempsIn (hn : Discernible env n) (hf : tempsIn f = []) (h : Message env n f texts text) :
    tempsIn text = texts.flatMap tempsIn := by
  have hresult : ∀ cast, (cast = "" ∨ ∃ own, resultCast n own = .ok cast) → IsPlainCast cast := by
    rintro cast (rfl | ⟨own, hcast⟩)
    · exact isPlainCast_empty
    · exact isPlainCast_resultCast hn hcast
  cases h with
  | @toObject _ self _ _ hcast hself =>
    have hself : IsPlainCast self := by
      rcases hself with ⟨cls, rfl⟩ | ⟨accessor, haccessor, rfl⟩
      · exact isPlainCast_defining hn cls n.selector
      · have hcls : ∀ a ∈ inlineAccessors, ObjcLowering.tempsIn a.cls = [] := by decide +kernel
        refine isPlainCast_of_type ?_
        rw [tempsIn_pointerTo]
        exact hcls accessor haccessor
    rw [hresult _ hcast, tempsIn_callWith, hf, hself, nil_append, flatMap_cons]
  | toNothing hcast => simp [hresult _ hcast _, hf]
  | @toSuper type args _ =>
    have hself : ObjcLowering.tempsIn
        ("(" ++ pointerTo ((stated? env.cls.superclass).getD env.root) ++ ")self") = [] := by
      simp (disch := simp; decide) [hn.parent]
    have hcast : IsPlainCast (if type.isObject then "(" ++ pointerTo env.cls.name ++ ")" else "") := by
      refine isPlainCast_ite (fun _ => isPlainCast_of_type ?_) fun _ => isPlainCast_empty
      rw [tempsIn_pointerTo]
      exact hn.env_texts _ (by simp [Env.texts])
    rw [hcast, tempsIn_callWith, hf, hself, nil_append, nil_append]
  | toClass => simp (disch := simp; decide) [hf]

theorem Copied.tempsIn_subset (hn : Discernible env n)
    (hsource : env.source = some source) (huse : macroUse? n = .ok (some use))
    (h : Copied source n use.1 use.2 texts text) : tempsIn text ⊆ texts.flatMap tempsIn := by
  obtain ⟨hi, hl, htext, hranges, hcopy⟩ := h
  rw [flatMap_map]
  exact hn.copies _ hsource n (Node.mem_preorder_self n) _ _ _ huse hi hl _ _ _ htext hranges hcopy

theorem Wording.tempsIn_subset (hn : Discernible env n) (h : Wording env n texts text) :
    tempsIn text ⊆ texts.flatMap tempsIn := by
  have hplain : tempsIn text = [] → tempsIn text ⊆ texts.flatMap tempsIn := fun h => by simp [h]
  have hsame : tempsIn text = texts.flatMap tempsIn → tempsIn text ⊆ texts.flatMap tempsIn :=
    fun h => h ▸ List.Subset.refl _
  have hhead := tempsIn_headD texts
  cases h with
  | first _ => exact hhead
  | todo _ =>
    apply hplain
    simp (disch := simp; decide) [hn.kind]
  | recovery _ => exact hplain (tempsIn_fixed (by decide))
  | copied hsource huse hcopied => exact hcopied.tempsIn_subset hn hsource huse
  | nothing _ => exact hplain tempsIn_empty
  | paren _ => simpa (disch := simp; decide) using hhead
  | implicitCast _ hcast => exact hsame (by simp [isPlainCast_implicitCastText hn hcast _])
  | cast _ hcast => rwa [isPlainCast_castText hn hcast]
  | compound _ htype => simpa (disch := simp; decide) [hn.qualType htype] using hhead
  | null _ => exact hplain tempsIn_nullPointer
  | reference _ hname htext =>
    have hreferenced := hn.referenced hname
    rw [textOr_eq_ok htext] at hreferenced
    exact hplain hreferenced
  | member _ =>
    split <;> simpa (disch := simp; decide) [hn.name, ← String.append_assoc] using hhead
  | binary _ =>
    apply hsame
    simp (disch := simp; decide) [hn.opcode]
  | @unary op operand hkind hop =>
    have htext : (if n.attrs.isPostfix then operand ++ op else op ++ operand) = operatorText n operand := by
      rw [operatorText, textOr_eq_ok hop]
      rfl
    rw [htext]
    simpa using hn.operators n (Node.mem_preorder_self n) hkind operand
  | conditional _ | call _ | subscript _ | items _ =>
    apply hsame
    simp (disch := simp; decide)
  | trait _ =>
    apply hsame
    have hop : tempsIn (n.attrs.name.getD "sizeof").plain = [] := hn.nameOr (by decide +kernel)
    simp (disch := simp; decide) [hop]
  | traitOfType _ htype hstated =>
    apply hplain
    have hop : tempsIn (n.attrs.name.getD "sizeof").plain = [] := hn.nameOr (by decide +kernel)
    have hq := hn.argType htype (Option.filter_eq_some_iff.mp hstated).1
    simp (disch := simp; decide) [hop, hq]
  | traitOfNothing _ =>
    apply hplain
    have hop : tempsIn (n.attrs.name.getD "sizeof").plain = [] := hn.nameOr (by decide +kernel)
    simp (disch := simp; decide) [hop]
  | value _ hd hvalue =>
    apply hplain
    rcases (yields_valueText hvalue).2 with ⟨-, rfl⟩ | hvalue
    · have hall : ∀ d ∈ ["0", "0.0", "\"\""], tempsIn d = [] := by decide +kernel
      exact hall _ hd
    · exact hn.value hvalue
  | char _ hchar => exact hplain (tempsIn_charText (fun v hv => hn.value hv) hchar)
  | bool _ => exact hplain (tempsIn_boolText _)
  | boxedLiteral _ hchild hleaf hliteral =>
    refine hplain (tempsIn_boxedLiteral ?_ hliteral)
    rcases Node.mem_preorder_of_descend _ hleaf with hmem | rfl
    · exact (hn.of_inner hchild).of_mem hmem
    · exact hn.blank
  | @boxed box _ _ =>
    apply hsame
    cases box <;> simp (disch := simp; decide)
  | ivar _ hdecl =>
    apply hplain
    simp (disch := simp; decide) [String.append_assoc, tempsIn_ivarPath_append,
      hn.declName hdecl]
  | refusedIvar _ hdecl =>
    apply hplain
    simp (disch := simp; decide) [hn.declName hdecl]
  | otherIvar _ hdecl =>
    apply hsame
    simp (disch := simp; decide) [hn.declName hdecl, ← String.append_assoc]
  | message hkind hcallee hmessage =>
    exact hsame (hmessage.tempsIn hn (hn.callees n (Node.mem_preorder_self n) hkind _ hcallee))
  | refused _ => exact hplain tempsIn_empty
  | comment _ htext =>
    have hall : ∀ d ∈ ["/* TODO: empty BlockExpr */", "/* TODO: BlockExpr without BlockDecl */"],
        tempsIn d = [] := by decide +kernel
    exact hplain (hall _ htext)

theorem AllKnown.flatMap (h : AllKnown E texts) : texts.flatMap tempsIn ⊆ E := by
  intro w hw
  obtain ⟨text, htext, hw⟩ := mem_flatMap.mp hw
  exact h text htext hw

def ComposesParts (env : Env) (n : Node) (expr : Node → Lower String) : Prop :=
  ∀ c ∈ n.preorder, Composes env (expr c)

theorem Spells.grows (hexpr : ComposesParts env n expr) (hs : Discreet s)
    (h : Spells expr env n ps s texts s') : Grows env s s' ∧ AllKnown (declared s'.pending) texts := by
  induction h with
  | nil => exact ⟨.refl hs, by simp [AllKnown]⟩
  | cons hp htext _ ih =>
    obtain ⟨hgrows, hknown⟩ := hexpr _ (Node.mem_preorder_of_part hp) _ _ _ hs htext
    obtain ⟨hgrows', hknown'⟩ := ih hgrows.discreet
    exact ⟨hgrows.trans hgrows', forall_mem_cons.mpr ⟨hknown.mono hgrows'.subset, hknown'⟩⟩

theorem steady_consume (s : State) (name : Name) : Steady s (s.consume name) := by
  unfold State.consume
  split <;> exact ⟨⟨rfl, rfl, rfl⟩, rfl, rfl⟩

theorem Noted.steady (h : Noted n s t) : Steady s t := by
  induction h with
  | nothing => exact .refl s
  | warned _ _ ih | failed _ _ ih => exact ⟨⟨ih.pending, ih.blocks, ih.temps⟩, ih.literals, ih.scopes⟩
  | @consumed t name _ _ _ ih =>
    have hconsume := steady_consume t name
    exact ⟨⟨hconsume.pending.trans ih.pending, hconsume.blocks.trans ih.blocks,
      hconsume.temps.trans ih.temps⟩, hconsume.literals.trans ih.literals, hconsume.scopes.trans ih.scopes⟩

theorem composes_keptRef (hroot : tempsIn env.root = []) (h : Composes env (expr c)) :
    Composes env (keptRef expr c) := by
  intro s text s' hs hkept
  have hretain : tempsIn (env.root ++ "_retain") = [] := tempsIn_append_count (.inl rfl) hroot
  obtain ⟨ref, href, rfl⟩ := yields_bind_pure.mp (yields_read_bind.mp hkept)
  obtain ⟨hgrows, hknown⟩ := h s ref s' hs href
  refine ⟨hgrows, ?_⟩
  split
  · simpa (disch := simp; decide) [Known, hroot] using hknown
  · have htext : "(struct " ++ env.root ++ " *)" ++ env.root ++ "_retain("
          ++ ("(struct " ++ env.root ++ " *)") ++ ref ++ ")" =
        "(struct " ++ env.root ++ " *)" ++ (env.root ++ "_retain") ++ "("
          ++ ("(struct " ++ env.root ++ " *)") ++ ref ++ ")" := by
      rw [show "_retain(" = "_retain" ++ "(" from rfl]
      simp only [String.append_assoc]
    rw [Known, htext]
    generalize env.root ++ "_retain" = f at hretain
    simpa (disch := simp; decide) [hretain, hroot, ← String.append_assoc] using hknown

theorem declaresFrom_receiver {kind : TempKind} (hroot : tempsIn env.root = []) (hvalue : Known E value) :
    DeclaresFrom E (receiverDecl env.root (kind.nameOf k) value) := by
  have htype : tempsIn (pointerTo env.root) = [] := by rw [tempsIn_pointerTo, Json.plain, hroot]
  refine ⟨pointerTo env.root, "", "(" ++ pointerTo env.root ++ ")" ++ value, ?_, ?_, htype, by simp [receiverDecl],
    .inl rfl, ?_⟩
  · rw [receiverDecl, show " = (" = " = " ++ "(" from rfl]
    simp only [String.append_assoc, String.empty_append]
  · exact closes_append_of_isFixed (isFixed_literal rfl rfl)
  · rw [isPlainCast_of_type htype]
    exact hvalue

theorem declaresFrom_buffer {kind : TempKind} (hroot : tempsIn env.root = []) (hrefs : AllKnown E refs) :
    DeclaresFrom E (bufferDecl env.root (kind.nameOf k) refs) := by
  refine ⟨"struct " ++ env.root ++ " *", "[]", "\x7b" ++ join ", " refs ++ "\x7d", ?_, ?_, ?_,
    by simp [bufferDecl], .inr rfl, ?_⟩
  · rw [bufferDecl, show "[] = \x7b" = "[]" ++ " = " ++ "\x7b" from rfl, show "\x7d;" = "\x7d" ++ ";" from rfl]
    simp only [String.append_assoc]
  · exact closes_append_of_isFixed (isFixed_literal rfl rfl)
  · simp (disch := simp; decide) [hroot]
  · simpa (disch := simp; decide) using hrefs.flatMap

theorem known_collection (f : String) (count : Nat) {kind : TempKind}
    (hf : isFixed false true f.toList = true) (hk : kind.nameOf k ∈ E) :
    Known E (f ++ kind.nameOf k ++ ", " ++ toString count ++ ")") := by
  simpa (disch := simp; decide) [Known, tempsIn_fixed_append hf] using hk

theorem Collection.grows (hn : Discernible env n) (hexpr : ComposesParts env n expr) (hs : Discreet s)
    {kind : TempKind} (h : Collection n kind f items refs count)
    (hitems : Yields (n.inner.mapM (keptRef expr)) env { s with temps := s.temps + 1 } items t) :
    Grows env s { t with pending := t.pending ++ [bufferDecl env.root (kind.nameOf s.temps) refs] } := by
  have hcounted : Discreet { s with temps := s.temps + 1 } := hs.of_eq rfl rfl
  have hkept : ComposesParts env n (keptRef expr) := fun c hc => composes_keptRef hn.root (hexpr c hc)
  obtain ⟨hgrows, hknown⟩ := (Spells.all hitems).grows hkept hcounted
  have hrefs : AllKnown (declared t.pending) refs := by
    cases h with
    | array _ => exact hknown
    | dictionary _ =>
      intro ref href
      apply hknown
      simp only [mem_append, mem_map, mem_flatMap, mem_cons, not_mem_nil,
        or_false] at href ⊢
      rcases href with ⟨pair, hpair, rfl⟩ | ⟨pair, hpair, rfl⟩
      · exact ⟨pair, hpair, .inl rfl⟩
      · exact ⟨pair, hpair, .inr rfl⟩
  exact hgrows.declare rfl (declaresFrom_buffer hn.root hrefs)

theorem Interned.grows (hn : Discernible env n) (hs : Discreet s)
    (h : Interned n literal s name s') : Grows env s s' ∧ tempsIn name = [] := by
  cases h with
  | known hname => exact ⟨.refl hs, hs.literals _ _ hname⟩
  | new _ hplace hname hnoted =>
    have hplain : tempsIn name = [] := by
      rw [hname]
      exact hn.placeName (.inl rfl) hplace _
    have ht := hnoted.steady.discreet hs
    refine ⟨⟨⟨fun text found hfound => ?_, ht.scopes⟩, [], [], ?_, trivial⟩, hplain⟩
    · rw [Table.find?_set] at hfound
      split at hfound
      · cases hfound
        exact hplain
      · exact ht.literals text found hfound
    · exact .nothing hnoted.steady.pending hnoted.steady.blocks hnoted.steady.temps.ge

def BodyAdds (env : Env) (k : Nat) (body : Node) : Prop :=
  ∀ s code s', Discreet s → Yields (lowerFunctionBody (level k) [] body) env s code s' →
    Discreet s' ∧ ∃ ds made, Adds env code.tempDecls s s' ds made

theorem grows_function (hbody : BodyAdds env k body) (hs : Discreet s)
    (h : Yields (asOwnFunction (lowerFunctionBody (level k) [] body)) env s code t) :
    Grows env s { t with
      blocks := t.blocks ++ [trimRightBy (· == '\n') (head ++ code.render)] } := by
  simp only [asOwnFunction, yields_get_bind, yields_set_bind, yields_bind (a := lowerFunctionBody _ _ _),
    yields_modify_bind, yields_pure] at h
  obtain ⟨_, u, hrun, rfl, rfl⟩ := h
  have hadded := fun hinner => hbody _ code u hinner hrun
  obtain ⟨hu, ds, made, hadds⟩ := hadded ⟨hs.literals, by simp⟩
  have hds : code.tempDecls ++ u.pending = ds := hadds.pending
  refine ⟨⟨hu.literals, hs.scopes⟩, [], made ++ [(trimRightBy (· == '\n') (head ++ code.render), ds)],
    ⟨by simp, ?_, fun f hf => ?_, hadds.numbered.perm ?_⟩, trivial⟩
  · simp [hadds.blocks]
  · rcases mem_append.mp hf with hf | hf
    · exact hadds.functions f hf
    · rw [mem_singleton.mp hf, ← hds]
      exact .body head rfl hrun
  · simpa using perm_append_comm

theorem grows_emptyFunction (hs : Discreet s) : Grows env s { s with
      blocks := s.blocks ++ [trimRightBy (· == '\n') (head ++ (Code.block 0 []).render)] } := by
  refine ⟨hs.of_eq rfl rfl, [], [(trimRightBy (· == '\n') (head ++ (Code.block 0 []).render), [])],
    ⟨by simp, by simp, fun f hf => ?_, .nil (Nat.le_refl _)⟩, trivial⟩
  rw [mem_singleton.mp hf]
  exact .empty head

theorem Defined.grows (hn : Discernible env n) (hbodies : ∀ body ∈ n.preorder, BodyAdds env k body)
    (hs : Discreet s) (h : Defined (level k) env n s name s') : Grows env s s' ∧ tempsIn name = [] := by
  obtain ⟨hplace, hnoted, hbody, -, rfl⟩ := h
  refine ⟨(hnoted.steady.grows hs).trans ?_, hn.placeName (.inr rfl) hplace _⟩
  have ht := hnoted.steady.discreet hs
  rcases hbody with ⟨rfl, rfl⟩ | ⟨body, hbody, hcode⟩
  · exact grows_emptyFunction ht
  · exact grows_function (hbodies body (Node.preorderList_subset hbody)) ht hcode

structure ComposesBelow (env : Env) (k : Nat) (n : Node) : Prop where
  parts : ComposesParts env n (level k).expr
  bodies : ∀ body ∈ n.preorder, BodyAdds env k body

theorem composes_exprStep (hn : Discernible env n) (hb : ComposesBelow env k n) :
    Composes env (exprStep (level k) n) := by
  intro s text s' hs h
  cases expressed_of_yields h with
  | spelt _ hnoted hspells hwording =>
    obtain ⟨hgrows, hknown⟩ := hspells.grows hb.parts (hnoted.steady.discreet hs)
    exact ⟨(hnoted.steady.grows hs).trans hgrows,
      List.Subset.trans (hwording.tempsIn_subset hn) hknown.flatMap⟩
  | @table _ t u _ r cast value args hkind hcallee _ _ hr hcast hnoted hvalue hargs =>
    have ht := hnoted.steady.discreet hs
    obtain ⟨hreceiver, hknown⟩ :=
      hb.parts r (Node.mem_preorder_of_inner (receiver?_mem hr)) t value u ht hvalue
    have hcounted : Grows env { u with temps := u.temps + 1 } { u with temps := u.temps + 1 } :=
      .refl (hreceiver.discreet.of_eq rfl rfl)
    have hname : (receiverDecl env.root (TempKind.receiver.nameOf u.temps) value).name
        = TempKind.receiver.nameOf u.temps := rfl
    have hdeclared := hcounted.declare hname (declaresFrom_receiver hn.root hknown)
    obtain ⟨hgrows, hknown'⟩ :=
      (Spells.children childrenAt_tail hargs).grows hb.parts hdeclared.discreet
    refine ⟨(hnoted.steady.grows hs).trans (hreceiver.trans (hdeclared.trans hgrows)), ?_⟩
    have hf := hn.callees n (Node.mem_preorder_self n) hkind _ hcallee
    rw [Known, isPlainCast_resultCast hn hcast, tempsIn_callWith, hf, nil_append, tempsIn_nameOf]
    exact append_subset.mpr ⟨List.Subset.trans (by simp [receiverDecl]) hgrows.subset, hknown'.flatMap⟩
  | @collection _ t kind f items refs count _ hcollection hitems =>
    refine ⟨hcollection.grows hn hb.parts hs hitems, ?_⟩
    have hf : isFixed false true f.toList = true := by
      cases hcollection <;> decide +kernel
    exact known_collection f count hf (by simp [bufferDecl])
  | string _ hinterned =>
    obtain ⟨hgrows, hname⟩ := hinterned.grows hn hs
    refine ⟨hgrows, known_of_eq_nil ?_⟩
    simp (disch := simp; decide) [hname]
  | block _ hdefined =>
    obtain ⟨hgrows, hname⟩ := hdefined.grows hn hb.bodies hs
    exact ⟨hgrows, known_of_eq_nil hname⟩

end ObjcLowering.Lowering
