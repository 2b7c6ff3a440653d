import ObjcLowering.Proofs.Module.Conservation
import ObjcLowering.Proofs.Patched.Gathering

/-! Which functions of a source file are kept. -/

namespace ObjcLowering

open Ast Declarations List

def markingKinds : List String :=
  ["ObjCMessageExpr", "ObjCIvarRefExpr", "ObjCBoolLiteralExpr", "ObjCStringLiteral", "ObjCBoxedExpr",
   "ObjCArrayLiteral", "ObjCDictionaryLiteral", "BlockExpr", "PseudoObjectExpr"]

def unmarkedKinds : List String :=
  ["ObjCAtSynchronizedStmt", "ObjCForCollectionStmt", "ObjCAutoreleasePoolStmt", "ObjCBridgedCastExpr"]

def DeclaresObject (n : Node) : Prop :=
  n.kind = "VarDecl" ∧ ∃ raw, n.qualTypeOr "int" = .ok raw ∧ (SourceType.mk raw).isObject = true

def NeedsLowering (body : Node) : Prop :=
  ∃ n ∈ body.preorder, n.kind ∈ markingKinds ++ unmarkedKinds ∨ DeclaresObject n

def HidesObjects (body : Node) : Prop := ∃ n ∈ body.preorder, n.kind ∈ unmarkedKinds ∨ DeclaresObject n

def Function.ShowsObjects (f : Function) (body : Node) : Prop :=
  (∃ n ∈ body.preorder, n.kind ∈ objectKinds) ∨ f.returnType.isObject = true ∨
    ∃ p ∈ f.params, p.type.isObject = true

def Function.IsMarked (f : Function) : Prop :=
  ∃ body, f.body = some body ∧ (f.usesObjects = true ↔ f.ShowsObjects body)

variable {f : Function}

theorem markingKinds_subset : markingKinds ⊆ objectKinds := by decide

theorem needsLowering_iff : NeedsLowering body ↔
    (∃ n ∈ body.preorder, n.kind ∈ markingKinds) ∨ HidesObjects body := by
  simp only [NeedsLowering, HidesObjects, mem_append, ← exists_or, ← and_or_left, or_assoc]

theorem marks_needs_iff (h : f.usesObjects = true ↔ f.ShowsObjects body) :
    (NeedsLowering body → f.usesObjects = true) ↔ ¬ (HidesObjects body ∧ ¬ f.ShowsObjects body) := by
  rw [h, needsLowering_iff]
  constructor
  · rintro hneeds ⟨hhides, hshows⟩
    exact hshows (hneeds (.inr hhides))
  · rintro hhidden (⟨n, hn, hkind⟩ | hhides)
    · exact .inl ⟨n, hn, markingKinds_subset hkind⟩
    · exact not_not.mp fun hshows => hhidden ⟨hhides, hshows⟩

theorem anyM_eq_ok {p : α → Except Fault Bool} {xs : List α}
    (h : xs.anyM p = .ok b) : b = true ↔ ∃ x ∈ xs, p x = .ok true := by
  induction xs with
  | nil =>
    cases h
    simp
  | cons x xs ih =>
    simp only [anyM, bind_eq_ok] at h
    obtain ⟨found, hfound, h⟩ := h
    cases found with
    | true =>
      cases h
      exact iff_of_true rfl ⟨x, .head _, hfound⟩
    | false => simp [ih h, hfound]

theorem hasObjectParam_eq_ok {b : Bool} (h : hasObjectParam params = .ok b) :
    b = true ↔ ∃ p ∈ params, p.type.isObject = true := by
  have hparam : ∀ p : Param, (do return (← p.type.checked).isObject : Except Fault Bool) = .ok true ↔
      p.type.isObject = true := by
    intro p
    cases hraw : p.type.raw with
    | text s => simp [SourceType.checked, hraw, Json.isText, bind, Except.bind, pure, Except.pure]
    | _ =>
      have hblank : p.type.isObject = false := by
        have hspelling : p.type.spelling = "" := by simp [SourceType.spelling, hraw, Json.text?]
        rw [SourceType.isObject, hspelling]
        decide
      simp [SourceType.checked, hraw, Json.isText, bind, Except.bind, hblank]
  rw [anyM_eq_ok h]
  simp only [hparam]

theorem usesObjects_eq_ok (h : usesObjects body returnType params = .ok b) :
    b = true ↔ (∃ n ∈ body.preorder, n.kind ∈ objectKinds) ∨ returnType.isObject = true ∨
      ∃ p ∈ params, p.type.isObject = true := by
  have hnodes : hasObjectNodes body = true ↔ ∃ n ∈ body.preorder, n.kind ∈ objectKinds := by
    simp [hasObjectNodes]
  rw [← hnodes]
  unfold usesObjects at h
  split at h
  · next hshown =>
    cases h
    rw [Bool.or_eq_true] at hshown
    simp only [true_iff, ← or_assoc]
    exact .inl hshown
  · next hshown =>
    rw [Bool.or_eq_true, not_or] at hshown
    simp [hasObjectParam_eq_ok h, hshown]

namespace Declarations

def HasMarks (m : Module) : Prop := ∀ f ∈ m.functions, f.IsMarked

theorem hasMarks_addFunction (hm : HasMarks m) (n : Node) : Ensures HasMarks (addFunction m n) := by
  unfold addFunction
  dsimp only
  split
  · exact ensures_pure hm
  refine ensures_then fun params _ => ?_
  split
  · exact ensures_pure hm
  · next body hbody =>
    refine ensures_then fun shared _ => ?_
    refine ensures_then fun raw _ => ?_
    refine ensures_then fun type _ => ?_
    refine ensures_then fun marked hmarked => ?_
    refine ensures_pure (Q := HasMarks) fun f hf => ?_
    rcases mem_append.mp hf with hf | hf
    · exact hm f hf
    · cases mem_singleton.mp hf
      exact ⟨body, rfl, usesObjects_eq_ok hmarked⟩

theorem hasMarks_ofTree (fs : Files) (root : Node) : Ensures HasMarks (Module.ofTree fs root) := by
  have hempty : HasMarks {} := by
    intro f hf
    cases hf
  refine ensures_ofTree (fun hkeeps hm => ?_) (fun m n hm => hasMarks_addFunction hm n) hempty fs root
  rw [HasMarks, hkeeps.functions]
  exact hm

end Declarations

namespace Patched

open Lowering

def IsLowered (input : Input) (f : Function) (text : String) : Prop :=
  ∃ s s' body, Yields (functionText f) (envOf input { name := "__patched__" }) s body s' ∧
    text = String.join (s'.blocks.map (· ++ "\n\n")) ++ body

theorem value_of_gatherFunction (hname : functionName? input.text t = .ok (some name))
    (hnamed : name ≠ "") (hf : function? input name = some f) (hbody : f.body.isSome = true)
    (h : Gathers (gatherFunction t text) input g r g') :
    ∃ value, g'.values.find? (codeKey input.text t) = some value ∧
      if f.usesObjects then IsLowered input f value else value = text := by
  have hfound : ((some name).filter (· != "")).bind
      (fun name => (function? input name).filter (·.body.isSome)) = some f := by
    simp [Option.filter, hnamed, hf, hbody]
  unfold gatherFunction at h
  simp only [gathers_read_bind, gathers_liftM_bind] at h
  obtain ⟨name', hname', h⟩ := h
  rw [hname] at hname'
  cases hname'
  rw [hfound] at h
  dsimp only at h
  cases hmark : f.usesObjects with
  | true =>
    rw [hmark, if_pos rfl] at h
    obtain ⟨lowered, g₁, hlowered, h⟩ := gathers_bind.mp h
    obtain ⟨s, s', body, hyields, rfl, -⟩ := gathers_loweredFunction hlowered
    cases gathers_note.mp (gathers_setValue_bind.mp h)
    exact ⟨_, by simp, s, s', body, hyields, rfl⟩
  | false =>
    rw [hmark, if_neg Bool.false_ne_true] at h
    cases gathers_note.mp (gathers_setValue_bind.mp h)
    exact ⟨text, by simp, rfl⟩

/-- A function that was read is marked exactly if objects show in it. So one that needs lowering is
marked, unless all that needs it is hidden and no object shows elsewhere. A marked function is lowered
where the source defines it, and any other one is copied. -/
theorem functions_lowered_iff_shown {fs : Files} {root : Node} {m : Module}
    (hread : Module.ofTree fs root = .ok m) (hf : f ∈ m.functions) :
    ∃ body, f.body = some body ∧ (f.usesObjects = true ↔ f.ShowsObjects body) ∧
      ((NeedsLowering body → f.usesObjects = true) ↔ ¬ (HidesObjects body ∧ ¬ f.ShowsObjects body)) ∧
      ∀ {input : Input} {t : Tree} {name : String} {g g' : Gathered}, t.type = "function_definition" →
        functionName? input.text t = .ok (some name) → name ≠ "" → function? input name = some f →
        Gathers (gatherTop t) input g () g' →
        ∃ value, g'.values.find? (codeKey input.text t) = some value ∧
          if f.usesObjects then IsLowered input f value else t.text input.text = .ok value := by
  obtain ⟨body, hbody, hmark⟩ := hasMarks_ofTree fs root m hread f hf
  refine ⟨body, hbody, hmark, marks_needs_iff hmark, ?_⟩
  intro input t name g g' htype hname hnamed hfound h
  unfold gatherTop at h
  simp only [gathers_read_bind, gathers_liftM_bind] at h
  obtain ⟨text, htext, h⟩ := h
  have hother : implementationTypes.contains "function_definition" = false := by decide
  rw [htype, hother, if_neg Bool.false_ne_true, if_neg (by decide), if_pos rfl] at h
  obtain ⟨value, hvalue, hif⟩ := value_of_gatherFunction hname hnamed hfound (by simp [hbody]) h
  refine ⟨value, hvalue, ?_⟩
  cases hmark : f.usesObjects with
  | true => simpa [hmark] using hif
  | false =>
    have hkept : value = text := by simpa [hmark] using hif
    simpa [hkept] using htext

def poolTree (inside : List Node) : Node :=
  .bare "TranslationUnitDecl"
    [.mk { kind := "FunctionDecl", name := some (.text "work") }
      [.bare "CompoundStmt" [.bare "ObjCAutoreleasePoolStmt" [.bare "CompoundStmt" inside]]]]

def poolFile : Input :=
  let text := "void work(void) \x7b @autoreleasepool \x7b \x7d \x7d"
  let function : Tree := .node "function_definition" 0 40
    [.node "function_declarator" 5 15 [.node "identifier" 5 9 [] none] none] none
  { files := { trees := [(text, [function])] }
    path := .ofText "work.m"
    text
    module := readModule (poolTree []) ""
    classes := []
    root := "OZObject" }

def bodyKinds (root : Node) : Option (List (Option (List String))) :=
  (Module.ofTree {} root).toOption.map fun m =>
    m.functions.map fun f => f.body.map fun body => body.preorder.map Node.kind

theorem exists_of_bodyKinds (root : Node) (kinds : List String) (h : bodyKinds root = some [some kinds]) :
    ∃ m f body, Module.ofTree {} root = .ok m ∧ m.functions = [f] ∧ f.body = some body ∧
      body.preorder.map Node.kind = kinds := by
  obtain ⟨m, hread, hfunctions⟩ := toOption_map_eq_some.mp h
  obtain ⟨f, rest, hlist, hbody, hrest⟩ := map_eq_cons_iff.mp hfunctions
  obtain ⟨body, hbody, hkinds⟩ := Option.map_eq_some_iff.mp hbody
  rw [map_eq_nil_iff.mp hrest] at hlist
  exact ⟨m, f, body, hread, hlist, hbody, hkinds⟩

theorem send_in_pool_lowered :
    ∃ m f body, Module.ofTree {} (poolTree [.bare "ObjCMessageExpr" []]) = .ok m ∧ f ∈ m.functions ∧
      f.body = some body ∧ HidesObjects body ∧ f.usesObjects = true := by
  obtain ⟨m, f, body, hread, hfunctions, hbody, hkinds⟩ :=
    exists_of_bodyKinds (poolTree [.bare "ObjCMessageExpr" []])
      ["CompoundStmt", "ObjCAutoreleasePoolStmt", "CompoundStmt", "ObjCMessageExpr"] (by decide +kernel)
  have hf : f ∈ m.functions := by simp [hfunctions]
  have hkind : ∀ kind ∈ body.preorder.map Node.kind, ∃ n ∈ body.preorder, n.kind = kind :=
    fun kind hkind => mem_map.mp hkind
  rw [hkinds] at hkind
  obtain ⟨body', hbody', hmark, -⟩ := functions_lowered_iff_shown hread hf
  rw [hbody] at hbody'
  cases hbody'
  obtain ⟨pool, hpool, hpoolKind⟩ := hkind "ObjCAutoreleasePoolStmt" (by simp)
  obtain ⟨send, hsend, hsendKind⟩ := hkind "ObjCMessageExpr" (by simp)
  refine ⟨m, f, body, hread, hf, hbody, ⟨pool, hpool, .inl ?_⟩, hmark.mpr (.inl ⟨send, hsend, ?_⟩)⟩
  · rw [hpoolKind]
    decide
  · rw [hsendKind]
    decide

theorem pool_copied :
    (∃ m f body, Module.ofTree {} (poolTree []) = .ok m ∧ f ∈ m.functions ∧ f.body = some body ∧
      NeedsLowering body) ∧
    poolFile.module.functions.map Function.usesObjects = [false] ∧
    ((gather poolFile []).toOption.map fun g => g.values.find? "_n_1_1") =
      some (some "void work(void) \x7b @autoreleasepool \x7b \x7d \x7d") := by
  refine ⟨?_, by decide +kernel, by decide +kernel⟩
  obtain ⟨m, f, body, hread, hfunctions, hbody, hkinds⟩ :=
    exists_of_bodyKinds (poolTree []) ["CompoundStmt", "ObjCAutoreleasePoolStmt", "CompoundStmt"]
      (by decide +kernel)
  have hkind : "ObjCAutoreleasePoolStmt" ∈ body.preorder.map Node.kind := by simp [hkinds]
  obtain ⟨pool, hpool, hpoolKind⟩ := mem_map.mp hkind
  refine ⟨m, f, body, hread, by simp [hfunctions], hbody, pool, hpool, .inl ?_⟩
  rw [hpoolKind]
  decide

end Patched

end ObjcLowering
