import ObjcLowering.Proofs.Lowering.ExpressionHoists

/-! The texts that a tree brings into the code by itself. -/

namespace ObjcLowering

open Ast List

namespace Ast

theorem Slot.present?_bind [Inhabited α] {slot : Slot α}
    (h : slot.get = .ok a) (hf : f default = none) : slot.present?.bind f = f a := by
  cases slot with
  | absent =>
    cases h
    exact hf.symm
  | present b =>
    cases h
    rfl
  | alien j => cases h

namespace Node

theorem mem_preorder_iff {m n : Node} : m ∈ n.preorder ↔ m = n ∨ ∃ c ∈ n.inner, m ∈ c.preorder := by
  have hlist : ∀ ns : List Node, m ∈ preorderList ns ↔ ∃ c ∈ ns, m ∈ c.preorder := by
    intro ns
    induction ns with
    | nil => simp [preorderList]
    | cons c ns ih => simp [preorderList, ih]
  cases n with
  | mk a ns => rw [preorder, mem_cons, hlist, inner]

def loopType (type : Json) : String :=
  (SourceType.mk (.text (.ofList (Lowering.dropPointerConst 0 type.plain.toList)))).cType

def typeTexts (type : Slot TypeRef) : List String :=
  (type.present?.bind TypeRef.qual).toList.flatMap fun q =>
    [q.plain, (SourceType.mk q).cType, loopType q]

def nameTexts (decl : Slot DeclRef) : List String :=
  (decl.present?.bind DeclRef.name).toList.map Json.plain

def placeTexts (loc : Slot Place) : List String :=
  (loc.present?.bind Lowering.position?).toList.flatMap fun position =>
    [Lowering.placeName "_oz_str" (some position) 0, Lowering.placeName "_oz_block" (some position) 0]

def declareText (m : Node) : String :=
  (SourceType.mk (((m.attrs.type.present?.bind TypeRef.qual)).getD "int")).declare
    (m.attrs.name.getD "_anon")

def texts (m : Node) : List String :=
  [m.kind, m.name.plain, m.opcode.plain, m.declareText]
    ++ m.attrs.value.toList.flatMap (fun v => [v.plain, v.plain ++ "f"])
    ++ nameTexts m.attrs.referencedDecl ++ nameTexts m.attrs.decl
    ++ typeTexts m.attrs.type ++ typeTexts m.attrs.argType ++ placeTexts m.attrs.loc

end Node

end Ast

namespace Lowering

def Env.texts (env : Env) : List String :=
  env.root :: (env.cls.name :: env.cls.superclass.toList ++ env.module.classes.names).map Json.plain

def operatorText (n : Node) (operand : String) : String :=
  if n.attrs.isPostfix then operand ++ n.opcode.plain else n.opcode.plain ++ operand

/-- However the arguments in the use of a macro are written, the copy of the use mentions no generated
variable but those that the arguments mention. -/
def CopiesPlainly (source : String) (n : Node) (offset length : Int) : Prop :=
  ∀ text patches copy, macroText source offset length = .ok text →
    patches.map (fun p => (p.start + offset, p.stop + offset)) = (patchedIn [] [] n).2.reverse →
    applyPatches text patches = .ok copy → tempsIn copy ⊆ patches.flatMap fun p => tempsIn p.text

theorem tempsIn_placeName_none (hstem : stem = "_oz_str" ∨ stem = "_oz_block")
    (number : Nat) : tempsIn (placeName stem none number) = [] := by
  have hword : ∀ c ∈ (stem ++ "_L0_C").toList, Text.isWord c = true := by
    rcases hstem with rfl | rfl <;> exact all_iff_forall_prop.mp (by decide +kernel)
  have hname : placeName stem none number = stem ++ "_L0_C" ++ toString number := rfl
  rw [hname]
  apply tempsIn_eq_nil_of_word
  · intro c hc
    rw [String.toList_append, mem_append] at hc
    exact hc.elim (hword c) fun hc => Text.isWord_of_isDigit (isDigit_of_mem_toString hc)
  · rw [Bool.eq_false_iff]
    intro htemp
    have hletter := letter_of_isTemp htemp
    rcases hstem with rfl | rfl <;> simp [String.toList_append] at hletter

/-- Nothing that a tree brings into the code by itself looks like the name of a generated variable. -/
structure Discernible (env : Env) (n : Node) : Prop where
  env_texts : ∀ text ∈ env.texts, tempsIn text = []
  texts : ∀ m ∈ n.preorder, ∀ text ∈ m.texts, tempsIn text = []
  callees : ∀ m ∈ n.preorder, m.kind = "ObjCMessageExpr" → ∀ f, callee env m = .ok f → tempsIn f = []
  operators : ∀ m ∈ n.preorder, m.kind = "UnaryOperator" →
    ∀ operand, tempsIn (operatorText m operand) ⊆ tempsIn operand
  copies : ∀ source ∈ env.source, ∀ m ∈ n.preorder, ∀ use offset length,
    macroUse? m = .ok (some use) → byteCount use.1 = .ok offset → byteCount use.2 = .ok length →
    CopiesPlainly source m offset length

namespace Discernible

variable {env : Env} {n m : Node} {j d : Json}

theorem slot_name {decl : DeclRef}
    (hslot : ∀ text ∈ Node.nameTexts slot, tempsIn text = []) (hdecl : slot.get = .ok decl) :
    tempsIn (decl.name.getD "").plain = [] := by
  cases hname : decl.name with
  | none => exact tempsIn_empty
  | some name =>
    apply hslot
    simp [Node.nameTexts, Slot.present?_bind hdecl (f := DeclRef.name) rfl, hname]

theorem slot_type {type : TypeRef}
    (hslot : ∀ text ∈ Node.typeTexts slot, tempsIn text = []) (htype : slot.get = .ok type)
    (hq : type.qual = some q) (htext : text ∈ [q.plain, (SourceType.mk q).cType, Node.loopType q]) :
    tempsIn text = [] := by
  apply hslot
  simpa [Node.typeTexts, Slot.present?_bind htype (f := TypeRef.qual) rfl, hq] using htext

variable (h : Discernible env n)

include h

theorem of_mem (hm : m ∈ n.preorder) : Discernible env m := by
  have hsub := Node.preorder_subset_of_preorder n hm
  exact ⟨h.env_texts, fun l hl => h.texts l (hsub hl), fun l hl => h.callees l (hsub hl),
    fun l hl => h.operators l (hsub hl), fun source hs l hl => h.copies source hs l (hsub hl)⟩

theorem of_inner (hm : m ∈ n.inner) : Discernible env m :=
  h.of_mem (Node.mem_preorder_of_inner hm)

theorem blank : Discernible env Node.blank where
  env_texts := h.env_texts
  texts := by decide +kernel
  callees m hm hkind := by
    rw [mem_singleton.mp hm] at hkind
    exact absurd hkind (by decide)
  operators m hm hkind := by
    rw [mem_singleton.mp hm] at hkind
    exact absurd hkind (by decide)
  copies source _ m hm use offset length huse := by
    rw [mem_singleton.mp hm] at huse
    cases huse

theorem firstChild (hm : n.firstChild = .ok m) : Discernible env m := by
  rw [Node.eq_of_firstChild hm]
  cases hinner : n.inner with
  | nil => exact h.blank
  | cons c rest => exact h.of_inner (by simp [hinner])

theorem own (htext : text ∈ n.texts) : tempsIn text = [] :=
  h.texts n (Node.mem_preorder_self n) text htext

theorem kind : tempsIn n.kind = [] := h.own (by simp [Node.texts])

theorem name : tempsIn n.name.plain = [] := h.own (by simp [Node.texts])

theorem nameOr (hd : tempsIn d.plain = []) :
    tempsIn (n.attrs.name.getD d).plain = [] := by
  have hname := h.name
  unfold Node.name at hname
  cases hattr : n.attrs.name with
  | none => exact hd
  | some name => simpa [hattr] using hname

theorem opcode : tempsIn n.opcode.plain = [] := h.own (by simp [Node.texts])

theorem value (hv : n.attrs.value = some v) :
    tempsIn v.plain = [] := h.own (by simp [Node.texts, hv])

theorem float (hv : n.attrs.value = some v) :
    tempsIn (v.plain ++ "f") = [] := h.own (by simp [Node.texts, hv])

theorem referenced (hj : n.referencedName = .ok j) : tempsIn j.plain = [] := by
  obtain ⟨decl, hdecl, hname⟩ := bind_eq_ok.mp hj
  rw [← pure_eq_ok.mp hname]
  exact slot_name (fun text htext => h.own (by simp [Node.texts, htext])) hdecl

theorem declName (hdecl : n.attrs.decl.get = .ok decl) :
    tempsIn (decl.name.getD "").plain = [] :=
  slot_name (fun text htext => h.own (by simp [Node.texts, htext])) hdecl

theorem typeText {f : Json → String}
    (hf : ∀ q, f q ∈ [q.plain, (SourceType.mk q).cType, Node.loopType q]) (hd : tempsIn (f d) = [])
    (hj : n.qualTypeOr d = .ok j) : tempsIn (f j) = [] := by
  obtain ⟨type, htype, hqual⟩ := bind_eq_ok.mp hj
  rw [← pure_eq_ok.mp hqual]
  cases hq : type.qual with
  | none => exact hd
  | some q => exact slot_type (fun text htext => h.own (by simp [Node.texts, htext])) htype hq (hf q)

theorem cType (hd : tempsIn (SourceType.mk d).cType = [])
    (hj : n.qualTypeOr d = .ok j) : tempsIn (SourceType.mk j).cType = [] :=
  h.typeText (f := fun q => (SourceType.mk q).cType) (by simp) hd hj

theorem qualType (hj : n.qualType = .ok j) : tempsIn j.plain = [] :=
  h.typeText (f := Json.plain) (d := "") (by simp) tempsIn_empty hj

theorem argType
    (htype : n.attrs.argType.get = .ok type) (hq : type.qual = some q) : tempsIn q.plain = [] :=
  slot_type (fun text htext => h.own (by simp [Node.texts, htext])) htype hq (by simp)

theorem placeName {stem : String}
    (hstem : stem = "_oz_str" ∨ stem = "_oz_block") (hplace : n.attrs.loc.get = .ok place)
    (number : Nat) : tempsIn (placeName stem (position? place) number) = [] := by
  cases hposition : position? place with
  | none => exact tempsIn_placeName_none hstem number
  | some position =>
    apply h.own
    have hbind := Slot.present?_bind hplace (f := position?) rfl
    rcases hstem with rfl | rfl <;>
      simp [Node.texts, Node.placeTexts, hbind, hposition, Lowering.placeName]

theorem root : tempsIn env.root = [] := h.env_texts _ (by simp [Env.texts])

end Discernible

end Lowering

end ObjcLowering
