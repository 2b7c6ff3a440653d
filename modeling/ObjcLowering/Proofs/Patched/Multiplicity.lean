import Mathlib
import ObjcLowering.Proofs.Patched.Composition

/-!
How often a generated file defines a method or a static variable: once for each implementation of the
class.
-/

namespace ObjcLowering.Patched

open Lowering List

def isNamed (selector : Name) (isClassMethod : Bool) (m : Method) : Bool :=
  m.selector == selector && m.isClassMethod == isClassMethod

def isRootSelector (env : Env) (selector : Name) : Bool :=
  env.cls.name == .text env.root && rootSelectors.contains selector

def definitionCount (ds : List Definition) (selector : Name) (isClassMethod : Bool) : Nat :=
  ds.countP fun d => selector == .text d.selector && isClassMethod == d.isClassMethod

def makes (ds : List Definition) (selector : Name) (isClassMethod : Bool) : Bool :=
  definitionCount ds selector isClassMethod = 0 && selector != "dealloc"

/-- How often an implementation writes the function of a method, a `dealloc` that is made apart. A method
that is defined there is written with its definitions, and any other one for each time the class has it. -/
def writtenCount (env : Env) (ds : List Definition) (selector : Name) (isClassMethod : Bool) : Nat :=
  let methods := env.cls.methods.filter (isNamed selector isClassMethod)
  if isRootSelector env selector || methods.isEmpty then 0
  else if makes ds selector isClassMethod then methods.countP fun m => m.synthesized.isSome || m.body.isSome
  else definitionCount ds selector isClassMethod

def blockCount (env : Env) (ds : List Definition) (selector : Name) (isClassMethod : Bool) : Nat :=
  writtenCount env ds selector isClassMethod +
    if selector = "dealloc" && !isClassMethod then (deallocParts env ds).length else 0

section

variable (env : Env) (ds : List Definition) (selector : Name) (isClassMethod : Bool)

theorem definitionParts_eq (d : Definition) : definitionParts env d =
    if isRootSelector env (.text d.selector) ||
        (env.cls.methods.filter (isNamed (.text d.selector) d.isClassMethod)).isEmpty then []
    else [.function env.cls.name (.text d.selector) d.isClassMethod] := by
  have hdefined : (fun m => isDefinedBy m d) = isNamed (.text d.selector) d.isClassMethod := rfl
  unfold definitionParts
  rw [hdefined]
  split
  · next hnone =>
    have hempty : env.cls.methods.filter (isNamed (.text d.selector) d.isClassMethod) = [] := by
      rw [filter_eq_nil_iff]
      exact find?_eq_none.mp hnone
    rw [hempty, isEmpty_nil, Bool.or_true, if_pos rfl]
  · next m hm =>
    have hnamed := find?_some hm
    have hmem : m ∈ env.cls.methods.filter (isNamed (.text d.selector) d.isClassMethod) :=
      mem_filter.mpr ⟨mem_of_find?_eq_some hm, hnamed⟩
    have hsome : (env.cls.methods.filter (isNamed (.text d.selector) d.isClassMethod)).isEmpty = false :=
      isEmpty_eq_false_iff_exists_mem.mpr ⟨m, hmem⟩
    simp only [isNamed, Bool.and_eq_true, beq_iff_eq] at hnamed
    have hroot : isBuiltIn env m = isRootSelector env (.text d.selector) := by
      rw [isBuiltIn, hnamed.1]
      rfl
    rw [hsome, Bool.or_false, hroot, methodPart, hnamed.1, hnamed.2]

theorem count_definitions :
    (ds.flatMap (definitionParts env)).count (.function env.cls.name selector isClassMethod) =
      if isRootSelector env selector || (env.cls.methods.filter (isNamed selector isClassMethod)).isEmpty
        then 0 else definitionCount ds selector isClassMethod := by
  induction ds with
  | nil => simp [definitionCount]
  | cons d ds ih =>
    rw [flatMap_cons, count_append, ih, definitionParts_eq, definitionCount, definitionCount,
      countP_cons]
    by_cases hd : selector = .text d.selector ∧ isClassMethod = d.isClassMethod
    · obtain ⟨rfl, rfl⟩ := hd
      split
      · rfl
      · simp [Nat.add_comm]
    · have hother : (selector == .text d.selector && isClassMethod == d.isClassMethod) = false := by
        simpa using hd
      have hcount : ∀ b : Bool, (if b then [] else [Part.function env.cls.name (.text d.selector)
          d.isClassMethod]).count (.function env.cls.name selector isClassMethod) = 0 := by
        intro b
        rw [count_eq_zero]
        cases b <;> simp_all
      rw [hcount, hother]
      simp

theorem isMade_eq (h : isNamed selector isClassMethod m = true) :
    isMade env ds m = (!isRootSelector env selector && makes ds selector isClassMethod &&
      (m.synthesized.isSome || m.body.isSome)) := by
  simp only [isNamed, Bool.and_eq_true, beq_iff_eq] at h
  obtain ⟨rfl, rfl⟩ := h
  have hany : ds.any (isDefinedBy m) = !decide (definitionCount ds m.selector m.isClassMethod = 0) := by
    rw [Bool.eq_iff_iff]
    simp [definitionCount, isDefinedBy, countP_eq_zero]
  rw [isMade, makes, hany, Bool.not_not]
  have hroot : isBuiltIn env m = isRootSelector env m.selector := rfl
  rw [hroot]
  cases isRootSelector env m.selector <;> simp

theorem count_madeParts :
    (madeParts env ds).count (.function env.cls.name selector isClassMethod) =
      if !isRootSelector env selector && makes ds selector isClassMethod then
        (env.cls.methods.filter (isNamed selector isClassMethod)).countP fun m =>
          m.synthesized.isSome || m.body.isSome
      else 0 := by
  have hpart : ∀ m, (methodPart env.cls m == .function env.cls.name selector isClassMethod) =
      isNamed selector isClassMethod m := by
    intro m
    rw [Bool.eq_iff_iff]
    simp [methodPart, isNamed]
  have hmade : ∀ m, (methodPart env.cls m == .function env.cls.name selector isClassMethod &&
      isMade env ds m) = (isNamed selector isClassMethod m && (!isRootSelector env selector &&
        makes ds selector isClassMethod && (m.synthesized.isSome || m.body.isSome))) := by
    intro m
    rw [hpart]
    cases hnamed : isNamed selector isClassMethod m with
    | false => rfl
    | true => rw [isMade_eq env ds selector isClassMethod hnamed]
  rw [madeParts, count, countP_map, countP_filter, countP_filter]
  simp only [Function.comp_apply, hmade]
  split
  · next hmakes =>
    rw [hmakes]
    simp only [Bool.true_and, Bool.and_comm]
  · next hmakes =>
    rw [Bool.eq_false_iff.mpr hmakes]
    simp

theorem eq_deallocPart_of_mem (h : part ∈ deallocParts env ds) : part = deallocPart env.cls := by
  unfold deallocParts at h
  split at h
  · cases h
  · split at h
    · exact mem_singleton.mp h
    · cases h

theorem count_deallocParts :
    (deallocParts env ds).count (.function env.cls.name selector isClassMethod) =
      if selector = "dealloc" && !isClassMethod then (deallocParts env ds).length else 0 := by
  split
  · next hnamed =>
    simp only [Bool.and_eq_true, decide_eq_true_eq, Bool.not_eq_true'] at hnamed
    obtain ⟨rfl, rfl⟩ := hnamed
    exact count_eq_length.mpr fun part hpart => (eq_deallocPart_of_mem env ds hpart).symm
  · next hnamed =>
    rw [count_eq_zero]
    intro hpart
    cases eq_deallocPart_of_mem env ds hpart
    exact hnamed rfl

theorem writtenCount_eq : writtenCount env ds selector isClassMethod =
    (ds.flatMap (definitionParts env)).count (.function env.cls.name selector isClassMethod) +
      (madeParts env ds).count (.function env.cls.name selector isClassMethod) := by
  rw [count_definitions, count_madeParts, writtenCount]
  cases isRootSelector env selector with
  | true => rfl
  | false =>
    cases hmethods : env.cls.methods.filter (isNamed selector isClassMethod) with
    | nil => simp
    | cons m methods =>
      cases hmakes : makes ds selector isClassMethod with
      | false => simp
      | true =>
        simp only [makes, Bool.and_eq_true, decide_eq_true_eq] at hmakes
        simp [hmakes.1]

theorem count_functionParts :
    (functionParts env ds).count (.function env.cls.name selector isClassMethod) =
      blockCount env ds selector isClassMethod := by
  rw [functionParts, count_append, count_append, ← writtenCount_eq, count_deallocParts, blockCount]

theorem exists_of_mem_functionParts (h : part ∈ functionParts env ds) :
    ∃ selector isClassMethod, part = .function env.cls.name selector isClassMethod := by
  simp only [functionParts, mem_append] at h
  rcases h with (h | h) | h
  · obtain ⟨d, -, hd⟩ := mem_flatMap.mp h
    rw [definitionParts_eq] at hd
    split at hd
    · cases hd
    · exact ⟨_, _, mem_singleton.mp hd⟩
  · obtain ⟨m, -, rfl⟩ := mem_map.mp h
    exact ⟨_, _, rfl⟩
  · exact ⟨_, _, eq_deallocPart_of_mem env ds h⟩

end

theorem function_notMem_headParts {isClassMethod : Bool} :
    Part.function name selector isClassMethod ∉ headParts statics cls := by
  simp [headParts]

def blocksOf (input : Input) (cls : ClassDecl) : List Tree :=
  input.tops.filter fun t => (classAt? input t).any fun c => c.name == cls.name

theorem exists_class?_of_classAt? (h : classAt? input t = some cls) :
    ∃ name, input.class? name = some cls := by
  unfold classAt? at h
  split at h
  · split at h
    · obtain ⟨name, -, hclass⟩ := Option.bind_eq_some_iff.mp h
      exact ⟨name, hclass⟩
    · cases h
  · cases h

theorem eq_of_class? {c : ClassDecl} (hclass : input.class? name = some cls)
    (h : classAt? input t = some c) (hname : c.name = cls.name) : c = cls := by
  obtain ⟨other, hother⟩ := exists_class?_of_classAt? h
  have hnames : Json.text other = .text name :=
    (Input.mem_of_class? hother).2.symm.trans (hname.trans (Input.mem_of_class? hclass).2)
  cases hnames
  exact Option.some.inj (hother.symm.trans hclass)

theorem variable_of_mem_declarationParts (h : part ∈ declarationParts input statics t) :
    ∃ x, part = .variable x := by
  have hdeclared : part ∈ declaredParts input.text t → ∃ x, part = .variable x := by
    intro hpart
    obtain ⟨x, -, rfl⟩ := mem_map.mp hpart
    exact ⟨_, rfl⟩
  unfold declarationParts at h
  split at h
  · cases h
  · split at h
    · split at h
      · exact ⟨_, mem_singleton.mp h⟩
      · exact hdeclared h
    · exact hdeclared h

theorem count_function_topParts (hclass : input.class? name = some cls) (selector : Name)
    (isClassMethod : Bool) : (topParts input statics t).count (.function cls.name selector isClassMethod) =
      if (classAt? input t).any fun c => c.name == cls.name then
        blockCount (envOf input cls) (definitionsIn input.text t) selector isClassMethod
      else 0 := by
  cases hat : classAt? input t with
  | none =>
    rw [topParts, hat, count_eq_zero.mpr]
    · rfl
    · dsimp only
      split
      · intro hpart
        obtain ⟨x, hx⟩ := variable_of_mem_declarationParts hpart
        cases hx
      · exact not_mem_nil
  | some c =>
    rw [topParts_of_class hat]
    by_cases hname : c.name = cls.name
    · cases eq_of_class? hclass hat hname
      simp only [Option.any_some, beq_self_eq_true, if_true]
      rw [blockParts, count_append, count_eq_zero.mpr function_notMem_headParts, Nat.zero_add]
      exact count_functionParts (envOf input cls) _ selector isClassMethod
    · rw [count_eq_zero.mpr]
      · simp [hname]
      · intro hpart
        rcases mem_append.mp hpart with hpart | hpart
        · exact function_notMem_headParts hpart
        · obtain ⟨_, _, hpart⟩ := exists_of_mem_functionParts _ _ hpart
          exact hname (Part.function.inj hpart).1.symm

theorem count_function_partsFrom (hclass : input.class? name = some cls) (selector : Name)
    (isClassMethod : Bool) (statics : List Name) (ts : List Tree) :
    (partsFrom input statics ts).count (.function cls.name selector isClassMethod) =
      ((ts.filter fun t => (classAt? input t).any fun c => c.name == cls.name).map fun t =>
        blockCount (envOf input cls) (definitionsIn input.text t) selector isClassMethod).sum := by
  induction ts generalizing statics with
  | nil => rfl
  | cons t ts ih =>
    rw [partsFrom, count_append, ih, count_function_topParts hclass, filter_cons]
    split
    · rw [map_cons, sum_cons]
    · rw [Nat.zero_add]

def declares (input : Input) (x : Name) (t : Tree) : Bool :=
  t.type = "declaration" && !isPrototype t &&
    decide ((variableName? input.text t).map (Option.map Json.text) = .ok (some x))

def staticCount (input : Input) (x : Name) (t : Tree) : Nat :=
  match classAt? input t with
  | some cls => cls.statics.countP fun v => v.name == x
  | none => 0

def IsPlain (input : Input) (t : Tree) : Prop :=
  t.type = "declaration" → isPrototype t = false →
    ∃ name, name ≠ "" ∧ variableName? input.text t = .ok (some name) ∧ declaredNames input.text t = [name]

theorem count_variable_blockParts (env : Env) (ds : List Definition) (x : Name) :
    (blockParts env statics ds).count (.variable x) =
      if statics.contains x then env.cls.statics.countP (fun v => v.name == x) else 0 := by
  have hfunctions : Part.variable x ∉ functionParts env ds := by
    intro hpart
    obtain ⟨_, _, hx⟩ := exists_of_mem_functionParts _ _ hpart
    cases hx
  rw [blockParts, count_append, count_eq_zero.mpr hfunctions, Nat.add_zero, headParts, count,
    countP_map, countP_filter]
  split
  · next hx =>
    apply countP_congr
    intro v _
    simp only [Function.comp_apply, Bool.and_eq_true, beq_iff_eq, Part.variable.injEq]
    constructor
    · rintro ⟨rfl, -⟩
      rfl
    · rintro rfl
      exact ⟨rfl, hx⟩
  · next hx =>
    rw [countP_eq_zero]
    intro v _ hv
    simp only [Function.comp_apply, Bool.and_eq_true, beq_iff_eq, Part.variable.injEq] at hv
    obtain ⟨rfl, hv⟩ := hv
    exact hx hv

theorem name_of_settles? {v : StaticVar} (h : settles? input statics (some n) = some v) :
    Json.text n ∈ statics ∧ v.name = .text n := by
  obtain ⟨other, hother, hv⟩ := Option.bind_eq_some_iff.mp h
  obtain ⟨hname, hother⟩ := Option.filter_eq_some_iff.mp hother
  cases hname
  simp only [Bool.and_eq_true, contains_iff_mem] at hother
  exact ⟨hother.2, by simpa using find?_some hv⟩

theorem settles?_ne_none (hn : n ≠ "") (hmem : Json.text n ∈ statics)
    (hsub : statics ⊆ input.staticNames) : settles? input statics (some n) ≠ none := by
  obtain ⟨cls, hcls, hname⟩ := mem_flatMap.mp (hsub hmem)
  obtain ⟨v, hv, hname⟩ := mem_map.mp hname
  have hfilter : (some n).filter (fun n => n != "" && statics.contains (.text n)) = some n := by
    simp [Option.filter, hn, hmem]
  rw [settles?, hfilter, Option.bind_some, static?, Ne, find?_eq_none, not_forall]
  exact ⟨v, by simpa [hname] using ⟨cls, hcls, hv⟩⟩

section

theorem declares_iff (htype : t.type = "declaration") (hprototype : isPrototype t = false)
    (hname : variableName? input.text t = .ok (some n)) : declares input x t = true ↔ x = .text n := by
  simp [declares, htype, hprototype, hname, Except.map, eq_comm]

theorem declares_eq_false (h : t.type ≠ "declaration" ∨ isPrototype t = true) :
    declares input x t = false := by
  rcases h with h | h <;> simp [declares, h]

theorem declarationParts_eq (htype : t.type = "declaration") (hprototype : isPrototype t = false)
    (hname : variableName? input.text t = .ok (some n)) (hdeclared : declaredNames input.text t = [n]) :
    declarationParts input statics t = [.variable (.text n)] := by
  have hown : declaredParts input.text t = [.variable (.text n)] := by
    rw [declaredParts, hdeclared]
    rfl
  simp only [declarationParts, hprototype, settled?_eq htype hprototype hname, hown, Bool.false_eq_true,
    if_false]
  split
  · next v hv =>
    rw [(name_of_settles? hv).2]
    exact ite_self _
  · rfl

theorem count_variable_topParts (hplain : IsPlain input t) : (topParts input statics t).count (.variable x) =
    (if statics.contains x then staticCount input x t else 0) + if declares input x t then 1 else 0 := by
  by_cases htype : t.type = "declaration"
  · rw [topParts_of_declaration htype, staticCount, classAt?_of_declaration htype, ite_self, Nat.zero_add]
    cases hprototype : isPrototype t with
    | true =>
      rw [declares_eq_false (.inr hprototype)]
      simp [declarationParts, hprototype]
    | false =>
      obtain ⟨n, -, hname, hdeclared⟩ := hplain htype hprototype
      have hx : (Part.variable (.text n) == .variable x) = declares input x t := by
        rw [Bool.eq_iff_iff, declares_iff htype hprototype hname, beq_iff_eq, Part.variable.injEq, eq_comm]
      rw [declarationParts_eq htype hprototype hname hdeclared, count_singleton, hx]
  · rw [declares_eq_false (.inl htype), staticCount]
    cases hat : classAt? input t with
    | none => simp [topParts_of_ne hat htype]
    | some cls =>
      rw [topParts_of_class hat, count_variable_blockParts]
      rfl

theorem mem_staticsAfter (hplain : IsPlain input t) (hsub : statics ⊆ input.staticNames) :
    x ∈ staticsAfter input statics t ↔ x ∈ statics ∧ declares input x t = false := by
  by_cases hdeclaration : t.type = "declaration" ∧ isPrototype t = false
  · obtain ⟨htype, hprototype⟩ := hdeclaration
    obtain ⟨n, hn, hname, -⟩ := hplain htype hprototype
    rw [staticsAfter, settled?_eq htype hprototype hname, ← Bool.not_eq_true,
      declares_iff htype hprototype hname]
    split
    · next v hv => simp [(name_of_settles? hv).2]
    · next hnone =>
      refine (and_iff_left_of_imp fun hx => ?_).symm
      rintro rfl
      exact settles?_ne_none hn hx hsub hnone
  · have hother : t.type ≠ "declaration" ∨ isPrototype t = true := by
      rw [not_and_or, Bool.not_eq_false] at hdeclaration
      exact hdeclaration
    have hsettled : settled? input statics t = none := by
      rcases hother with h | h <;> simp [settled?, h]
    rw [staticsAfter, hsettled, declares_eq_false hother]
    simp

theorem staticCount_of_declares (h : declares input x t = true) : staticCount input x t = 0 := by
  simp only [declares, Bool.and_eq_true, decide_eq_true_eq] at h
  rw [staticCount, classAt?_of_declaration h.1.1]

theorem staticsAfter_subset : staticsAfter input statics t ⊆ statics := by
  unfold staticsAfter
  split
  · exact filter_subset_self _
  · exact Subset.refl _

theorem count_variable_of_notMem (hplain : ∀ t ∈ ts, IsPlain input t) (hx : x ∉ statics) :
    (partsFrom input statics ts).count (.variable x) = ts.countP (declares input x) := by
  induction ts generalizing statics with
  | nil => rfl
  | cons t ts ih =>
    obtain ⟨ht, hts⟩ := forall_mem_cons.mp hplain
    have hcontains : statics.contains x = false := by simpa using hx
    have hafter : x ∉ staticsAfter input statics t := fun hmem => hx (staticsAfter_subset hmem)
    rw [partsFrom, count_append, count_variable_topParts ht, ih hts hafter, hcontains, countP_cons]
    simp [Nat.add_comm]

/-- A variable that is still to be defined is written with every implementation of its class up to the
first declaration that defines it. -/
theorem count_variable_of_mem (hplain : ∀ t ∈ ts, IsPlain input t) (hx : x ∈ statics)
    (hsub : statics ⊆ input.staticNames) : (partsFrom input statics ts).count (.variable x) =
      ((ts.takeWhile fun t => !declares input x t).map (staticCount input x)).sum +
        ts.countP (declares input x) := by
  induction ts generalizing statics with
  | nil => rfl
  | cons t ts ih =>
    obtain ⟨ht, hts⟩ := forall_mem_cons.mp hplain
    have hcontains : statics.contains x = true := by simpa using hx
    rw [partsFrom, count_append, count_variable_topParts ht, hcontains, countP_cons,
      takeWhile_cons]
    cases hdeclares : declares input x t with
    | true =>
      have hafter : x ∉ staticsAfter input statics t := by
        rw [mem_staticsAfter ht hsub, hdeclares]
        simp
      rw [count_variable_of_notMem hts hafter, staticCount_of_declares hdeclares]
      simp [Nat.add_comm]
    | false =>
      have hafter : x ∈ staticsAfter input statics t := (mem_staticsAfter ht hsub).mpr ⟨hx, hdeclares⟩
      rw [ih hts hafter (Subset.trans staticsAfter_subset hsub)]
      simp [Nat.add_assoc]

end

/-- A class with a single implementation in the file, whose methods are distinct and are defined there at
most once. -/
structure HasOneBlock (input : Input) (cls : ClassDecl) (t : Tree) : Prop where
  block : blocksOf input cls = [t]
  methods : ∀ m ∈ cls.methods, (cls.methods.filter (isNamed m.selector m.isClassMethod)).length = 1
  definitions : ∀ d ∈ definitionsIn input.text t,
    definitionCount (definitionsIn input.text t) (.text d.selector) d.isClassMethod = 1
  dealloc : ∀ d ∈ definitionsIn input.text t, d.selector = "dealloc" → d.isClassMethod = false

def HasDealloc (env : Env) (ds : List Definition) : Prop :=
  ds.any (isWrittenDealloc env) = true ∨
    env.cls.name ≠ "OZSpinLock" ∧ ∃ text, madeDealloc? env = .ok (some text)

section

theorem definitionCount_le_one {isClassMethod : Bool}
    (h : ∀ d ∈ ds, definitionCount ds (.text d.selector) d.isClassMethod = 1) :
    definitionCount ds selector isClassMethod ≤ 1 := by
  by_cases hnone : definitionCount ds selector isClassMethod = 0
  · omega
  · obtain ⟨d, hd, hnamed⟩ := countP_pos_iff.mp (Nat.pos_of_ne_zero hnone)
    simp only [Bool.and_eq_true, beq_iff_eq] at hnamed
    rw [hnamed.1, hnamed.2]
    exact (h d hd).le

theorem blockCount_eq_one (hm : m ∈ env.cls.methods)
    (hcode : (m.synthesized.isSome || m.body.isSome) = true) (hroot : isBuiltIn env m = false)
    (hdealloc : m.selector ≠ "dealloc")
    (hunique : (env.cls.methods.filter (isNamed m.selector m.isClassMethod)).length = 1)
    (hdefined : definitionCount ds m.selector m.isClassMethod ≤ 1) :
    blockCount env ds m.selector m.isClassMethod = 1 := by
  have hmem : m ∈ env.cls.methods.filter (isNamed m.selector m.isClassMethod) :=
    mem_filter.mpr ⟨hm, by simp [isNamed]⟩
  have hmethods : env.cls.methods.filter (isNamed m.selector m.isClassMethod) = [m] := by
    obtain ⟨other, hother⟩ := length_eq_one_iff.mp hunique
    rw [hother] at hmem ⊢
    rw [mem_singleton.mp hmem]
  have hroot : isRootSelector env m.selector = false := hroot
  rw [blockCount, writtenCount, hmethods, hroot]
  simp only [hdealloc, decide_false, Bool.false_and, Bool.false_eq_true, if_false, Nat.add_zero,
    isEmpty_cons, Bool.or_self]
  split
  · simp [hcode]
  · next hmakes =>
    have hsome : definitionCount ds m.selector m.isClassMethod ≠ 0 := by
      intro hnone
      exact hmakes (by simp [makes, hnone, hdealloc])
    omega

theorem blockCount_dealloc_eq_one
    (hdefined : ∀ d ∈ ds, definitionCount ds (.text d.selector) d.isClassMethod = 1)
    (hinstance : ∀ d ∈ ds, d.selector = "dealloc" → d.isClassMethod = false)
    (h : HasDealloc env ds) : blockCount env ds "dealloc" false = 1 := by
  have hroot : isRootSelector env "dealloc" = false := by
    have hselectors : rootSelectors.contains (.text "dealloc") = false := by decide
    rw [isRootSelector, hselectors, Bool.and_false]
  have hmakes : makes ds "dealloc" false = false := by simp [makes]
  rw [blockCount, writtenCount, hroot, hmakes]
  simp only [Bool.false_or, Bool.not_false, Bool.and_true, decide_true, if_true, Bool.false_eq_true, if_false]
  by_cases hany : ds.any (isWrittenDealloc env) = true
  · obtain ⟨d, hd, hwritten⟩ := any_eq_true.mp hany
    simp only [isWrittenDealloc, Bool.and_eq_true, beq_iff_eq, any_eq_true] at hwritten
    obtain ⟨hselector, m, hm, hdefines⟩ := hwritten
    have hkind := hinstance d hd hselector
    have hcount := hdefined d hd
    rw [hselector, hkind] at hcount
    rw [isDefinedBy, hselector, hkind] at hdefines
    have hsome : (env.cls.methods.filter (isNamed "dealloc" false)).isEmpty = false :=
      isEmpty_eq_false_iff_exists_mem.mpr ⟨m, mem_filter.mpr ⟨hm, hdefines⟩⟩
    have hmade : deallocParts env ds = [] := by rw [deallocParts, hany, Bool.true_or, if_pos rfl]
    rw [hsome, hmade, hcount]
    rfl
  · obtain ⟨hname, text, hmade⟩ := h.resolve_left hany
    have hparts : deallocParts env ds = [deallocPart env.cls] := by
      rw [deallocParts, if_neg (by simp [hany, hname]), hmade]
    rw [hparts]
    split
    · rfl
    · next hsome =>
      obtain ⟨m, hm⟩ := isEmpty_eq_false_iff_exists_mem.mp (Bool.eq_false_iff.mpr hsome)
      obtain ⟨hm, hnamed⟩ := mem_filter.mp hm
      have hnone : definitionCount ds "dealloc" false = 0 := by
        rw [definitionCount, countP_eq_zero]
        intro d hd hdealloc
        simp only [Bool.and_eq_true, beq_iff_eq] at hdealloc
        obtain ⟨hselector, hkind⟩ := hdealloc
        refine hany (any_eq_true.mpr ⟨d, hd, ?_⟩)
        simp only [isWrittenDealloc, Bool.and_eq_true, any_eq_true, isDefinedBy, ← hselector, ← hkind]
        exact ⟨by simpa using (Json.text.inj hselector).symm, m, hm, by simpa [isNamed] using hnamed⟩
      rw [hnone]
      rfl

end

def toyClass : ClassDecl :=
  { name := "A"
    superclass := some "R"
    methods := [{ selector := "m", returnType := ⟨"int"⟩, body := some (.mk { kind := "CompoundStmt" } []) }]
    statics := [{ name := "n", type := ⟨"int"⟩ }] }

def toyFile (text : String) (tops : List Tree) : Input :=
  { files := { trees := [(text, tops)] }
    path := .ofText "A.m"
    text
    module := { classes := ⟨[("R", { name := "R", stem := "A" }), ("A", toyClass)]⟩ }
    classes := [toyClass]
    root := "R" }

def toyBlock (type : String) (start stop : Nat) (definitions : List Nat) : Tree :=
  .node type start stop
    (.node "identifier" (start + 16) (start + 17) [] none :: definitions.map fun place =>
      .node "implementation_definition" place (place + 8)
        [.node "method_definition" place (place + 8)
          [.node "-" place (place + 1) [] none, .node "identifier" (place + 7) (place + 8) [] none] none]
        none)
    none

def toyDeclaration (start : Nat) : Tree :=
  .node "declaration" start (start + 13) [.node "identifier" (start + 11) (start + 12) [] none] none

def plainFile : Input :=
  toyFile "static int n;\n@implementation A\n- (int)m\n@end\n"
    [toyDeclaration 0, toyBlock "class_implementation" 14 45 [32]]

def plainOutline : List Piece :=
  [.slot "_n_1_1", .text "\n", .text "/* @implementation A */\n", .slot "_impl_2_1", .text "\n",
   .text "\n/* -[A m] */\n", .slot "_n_3_1", .text "\n"]

theorem plainFile_class? : plainFile.class? "A" = some toyClass := rfl

theorem plainFile_hasOneBlock :
    HasOneBlock plainFile toyClass (toyBlock "class_implementation" 14 45 [32]) := by
  refine ⟨?_, ?_, ?_, ?_⟩
  · have htops : plainFile.tops = [toyDeclaration 0, toyBlock "class_implementation" 14 45 [32]] := rfl
    rw [blocksOf, htops, filter_cons_of_neg (by decide +kernel),
      filter_cons_of_pos (by decide +kernel), filter_nil]
  · intro m hm
    cases mem_singleton.mp hm
    rfl
  · decide +kernel
  · decide +kernel

def splitFile : Input :=
  toyFile "@implementation A\n- (int)m\n@end\n@implementation A (X)\n@end\nstatic int n;\n"
    [toyBlock "class_implementation" 0 31 [18], toyBlock "category_implementation" 32 58 [],
     toyDeclaration 59]

end ObjcLowering.Patched
