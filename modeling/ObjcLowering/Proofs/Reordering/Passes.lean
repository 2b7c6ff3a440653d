import ObjcLowering.Proofs.Hierarchy.Numbering
import ObjcLowering.Proofs.Reordering.Renumbering

/-!
The passes that complete a module keep two orders of its classes alike.
-/

namespace ObjcLowering

open List Table

/-- The second module is the first one with its classes in another order, up to a relation between
them. Errors and warnings may have another order too. -/
inductive Reorders (R : ClassDecl → ClassDecl → Prop) (m : Module) : Module → Prop
  | intro {classes : Table Name ClassDecl} {errors diagnostics : List String} :
      Matches (EntryRel R) m.classes.entries classes.entries → m.errors.Perm errors →
      m.diagnostics.Perm diagnostics → Reorders R m { m with classes, errors, diagnostics }

namespace Reorders

section

variable (h : Reorders R m m')

include h

theorem classes : Matches (EntryRel R) m.classes.entries m'.classes.entries := by
  cases h with
  | intro hclasses => exact hclasses

theorem values : Matches R m.classes.values m'.classes.values :=
  values_matches h.classes

theorem length_eq : m.classes.entries.length = m'.classes.entries.length :=
  h.classes.length_eq

theorem protocols_eq : m.protocols = m'.protocols := by
  cases h
  rfl

theorem generics_eq : m.generics = m'.generics := by
  cases h
  rfl

theorem replace {classes classes' : Table Name ClassDecl}
    (hclasses : Matches (EntryRel S) classes.entries classes'.entries)
    (herrors : errors.Perm errors') (hdiagnostics : diagnostics.Perm diagnostics') :
    Reorders S { m with classes, errors, diagnostics }
      { m' with classes := classes', errors := errors', diagnostics := diagnostics' } := by
  cases h
  exact .intro hclasses herrors hdiagnostics

theorem errors : m.errors.Perm m'.errors := by
  cases h with
  | intro _ herrors => exact herrors

theorem diagnostics : m.diagnostics.Perm m'.diagnostics := by
  cases h with
  | intro _ _ hdiagnostics => exact hdiagnostics

end

theorem mapClasses (h : Reorders Alike m m') (hfg : ∀ c d, Alike c d → Alike (f c) (g d)) :
    Reorders Alike { m with classes := m.classes.mapValues f }
      { m' with classes := m'.classes.mapValues g } :=
  h.replace (matches_mapValues h.classes hfg) h.errors h.diagnostics

theorem addErrors (h : Reorders Alike m m') (hfg : ∀ c d, Alike c d → f c = g d) :
    Reorders Alike { m with errors := m.errors ++ m.classes.values.flatMap f }
      { m' with errors := m'.errors ++ m'.classes.values.flatMap g } :=
  h.replace h.classes (h.errors.append (h.values.flatMap_perm hfg)) h.diagnostics

end Reorders

namespace Alike

variable (h : Alike c d)

include h

theorem congr (view : ClassDecl → β) (hview : ∀ c, view c.unnumbered = view c) :
    view c = view d := by
  rw [← hview c, h.unnumbered_eq, hview]

theorem name_eq : c.name = d.name := h.congr (·.name) fun _ => rfl

theorem superclass_eq : c.superclass = d.superclass :=
  h.congr (·.superclass) fun _ => rfl

theorem protocols_eq : c.protocols = d.protocols :=
  h.congr (·.protocols) fun _ => rfl

theorem with_id (id : Int) : Alike { c with id } { d with id } := by
  obtain ⟨ρ, hρ, properties, methods, hproperties, hmethods, rfl⟩ := h
  exact ⟨ρ, hρ, properties, methods, hproperties, hmethods, rfl⟩

theorem with_depth (depth : Int) : Alike { c with depth } { d with depth } := by
  obtain ⟨ρ, hρ, properties, methods, hproperties, hmethods, rfl⟩ := h
  exact ⟨ρ, hρ, properties, methods, hproperties, hmethods, rfl⟩

end Alike

variable {m m' : Module}

theorem Reorders.named (h : Reorders R m m') (hm : m.Named)
    (hR : ∀ c d, R c d → c.name = d.name ∧ c.superclass = d.superclass) : m'.Named := by
  refine hm.of_entries ((names_perm h.classes).nodup_iff.mp hm.nodup) fun e he => ?_
  obtain ⟨d, hd, hname, hrel⟩ := h.classes.exists_left he
  exact ⟨d, hd, hname.symm, hR _ _ hrel⟩

theorem Reorders.sameLinks (h : Reorders R m m')
    (hR : ∀ c d, R c d → c.name = d.name ∧ c.superclass = d.superclass) :
    Hierarchy.SameLinks m m' := by
  intro a up
  constructor
  · rintro ⟨c, hc, rfl, rfl⟩
    obtain ⟨d, hd, hrel⟩ := h.values.exists_right hc
    exact ⟨d, hd, (hR c d hrel).1.symm, (hR c d hrel).2.symm⟩
  · rintro ⟨d, hd, rfl, rfl⟩
    obtain ⟨c, hc, hrel⟩ := h.values.exists_left hd
    exact ⟨c, hc, hR c d hrel⟩

theorem Alike.links (c d : ClassDecl) (h : Alike c d) : c.name = d.name ∧ c.superclass = d.superclass :=
  ⟨h.name_eq, h.superclass_eq⟩

namespace Hierarchy

theorem reorders_warnMissingSupers (h : Reorders (· = ·) m m') :
    Reorders (· = ·) (warnMissingSupers m) (warnMissingSupers m') := by
  have hmissing : missingSuper? m.classes = missingSuper? m'.classes := by
    funext c
    have hhas := fun up => has_eq h.classes up
    simp only [missingSuper?, hhas]
  rw [warnMissingSupers_eq, warnMissingSupers_eq]
  refine h.replace h.classes h.errors (h.diagnostics.append ?_)
  rw [hmissing]
  exact h.values.perm_of_eq.filterMap _

variable (h : Reorders Alike m m') (hm : m.Named)

include h hm

theorem agree_assignIds :
    Agree (Reorders Alike) (assignIds m) (assignIds m') := by
  have hm' := h.named hm Alike.links
  have horder := (h.sameLinks Alike.links).orderOf_eq hm hm'
  unfold assignIds
  rw [classOrder_eq_ok hm, classOrder_eq_ok hm', horder]
  refine agree_pure (h.replace (h.classes.map fun e e' hee' => ?_) h.errors h.diagnostics)
  obtain ⟨name, c⟩ := e
  obtain ⟨name', d⟩ := e'
  obtain ⟨rfl, hcd⟩ := hee'
  exact ⟨rfl, hcd.with_id _⟩

theorem rel_class? (a : Name) :
    Option.Rel Alike (m.class? a) (m'.class? a) :=
  rel_find? h.classes hm.nodup a

theorem rel_parent? (hcd : Alike c d) :
    Option.Rel Alike (m.parent? c) (m'.parent? d) := by
  unfold Module.parent?
  rw [hcd.superclass_eq]
  cases stated? d.superclass with
  | none => exact .none
  | some up => exact rel_class? h hm up

theorem alike_chainFrom (hcd : Alike c d) (fuel : Nat) :
    Forall₂ Alike (m.chainFrom fuel c) (m'.chainFrom fuel d) := by
  induction fuel generalizing c d with
  | zero => exact .nil
  | succ fuel ih =>
    have hparent := rel_parent? h hm hcd
    unfold Module.chainFrom
    generalize m.parent? c = up at hparent
    generalize m'.parent? d = up' at hparent
    cases hparent with
    | none => exact .cons hcd .nil
    | some hup => exact .cons hcd (ih hup)

theorem alike_chain (hcd : Alike c d) :
    Forall₂ Alike (m.chain c) (m'.chain d) := by
  unfold Module.chain
  rw [← h.length_eq]
  exact alike_chainFrom h hm hcd _

theorem reorders_computeDepths :
    Reorders Alike (computeDepths m) (computeDepths m') := by
  refine h.mapClasses fun c d hcd => ?_
  have hdepth : depthOf m c = depthOf m' d := by
    unfold depthOf
    rw [(alike_chain h hm hcd).length_eq]
  rw [hdepth]
  exact hcd.with_depth _

end Hierarchy

namespace Properties

theorem nextSerial_eq (h : Reorders (· = ·) m m') : m.nextSerial = m'.nextSerial := by
  have hserials := h.values.perm_of_eq.flatMap_right fun c => c.allProperties.filterMap (·.serial)
  unfold Module.nextSerial
  refine hserials.foldl_eq' (fun x _ y _ n => ?_) 0
  omega

theorem lt_nextSerial (hc : c ∈ m.classes.values) (hk : k ∈ serialsOf c) : k < m.nextSerial := by
  have hmem : k ∈ m.classes.values.flatMap fun c => c.allProperties.filterMap (·.serial) :=
    mem_flatMap.mpr ⟨c, hc, hk⟩
  have hstart : ∀ (serials : List Nat) (n : Nat),
      n ≤ serials.foldl (fun n k => max n (k + 1)) n := by
    intro serials
    induction serials with
    | nil => exact fun n => Nat.le_refl n
    | cons j serials ih => exact fun n => (Nat.le_max_left n (j + 1)).trans (ih _)
  unfold Module.nextSerial
  dsimp only
  generalize (m.classes.values.flatMap fun c => c.allProperties.filterMap (·.serial)) = serials at hmem
  generalize 0 = n
  induction serials generalizing n with
  | nil => cases hmem
  | cons j serials ih =>
    cases hmem with
    | head => exact Nat.lt_of_lt_of_le (by omega) (hstart serials (max n (k + 1)))
    | tail _ hmem => exact ih hmem _

theorem reorders_number (h : Reorders (· = ·) m m') : Reorders Alike (number m) (number m') := by
  have hperm : m.classes.entries.Perm m'.classes.entries :=
    (h.classes.mono fun e e' hee' => Prod.ext hee'.1.symm hee'.2).perm_of_eq
  refine h.replace ?_ h.errors h.diagnostics
  rw [← nextSerial_eq h]
  exact matches_numberClasses hperm fun e he k hk =>
    lt_nextSerial (mem_values.mpr ⟨e.1, he⟩) hk

theorem agree_synthesize (h : Reorders (· = ·) m m') :
    Agree (Reorders Alike) (synthesize m) (synthesize m') := by
  have hnumber := reorders_number h
  unfold synthesize
  dsimp only
  refine agree_bind (agree_mapM (S := fun r r' => EntryRel Alike r.1 r'.1 ∧ r'.2 = r.2)
    hnumber.classes fun e e' hee' => ?_) fun done done' hdone => agree_pure ?_
  · exact agree_bind (agree_synthesizeClass hee'.2) fun r r' hr => agree_pure ⟨⟨hee'.1, hr.1⟩, hr.2⟩
  · refine hnumber.replace (hdone.map fun _ _ hr => hr.1) hnumber.errors ?_
    exact hnumber.diagnostics.append (hdone.flatMap_perm fun _ _ hr => hr.2.symm)

end Properties

namespace Methods

theorem duplicatesIn_unnumbered (cls : Name) (seen : List (Bool × String)) (xs : List Method) :
    duplicatesIn cls seen (xs.map Method.unnumbered) = duplicatesIn cls seen xs := by
  induction xs generalizing seen with
  | nil => rfl
  | cons x xs ih =>
    rw [map_cons, duplicatesIn, duplicatesIn, ih, ih]
    rfl

theorem agree_instanceKeys (hcd : Alike c d) :
    Agree (fun _ _ => True)
      ((c.methods.filter fun x => !x.isClassMethod).forM fun x => discard x.selector.asKey)
      ((d.methods.filter fun x => !x.isClassMethod).forM fun x => discard x.selector.asKey) := by
  obtain ⟨ρ, -, properties, methods, -, hmethods, rfl⟩ := hcd
  have hinstance := rel_filter (p := fun x : Method => !x.isClassMethod)
    (q := fun x : Method => !x.isClassMethod) (fun x y hxy => ?_) hmethods
  · refine agree_forM (.of_forall₂ hinstance) fun x y hxy => ?_
    rw [hxy.selector_eq]
    exact .of_eq rfl fun _ => trivial
  · obtain ⟨synthesized, -, rfl⟩ := hxy
    exact Iff.rfl

variable (h : Reorders Alike m m')

include h

theorem reorders_checkDuplicates :
    Reorders Alike (checkDuplicates m) (checkDuplicates m') :=
  h.addErrors fun _ _ hcd => hcd.congr (fun c => duplicatesIn c.name [] c.methods)
    fun c => duplicatesIn_unnumbered c.name [] c.methods

theorem implementers_eq (selector : Name) :
    implementers m selector = implementers m' selector := by
  unfold implementers
  rw [← countP_eq_length_filter, ← countP_eq_length_filter]
  refine h.values.countP_eq fun c d hcd => ?_
  refine hcd.congr (fun c => c.methods.any fun x => !x.isClassMethod && x.selector == selector)
    fun c => ?_
  simp only [ClassDecl.unnumbered, any_map]
  rfl

theorem usesTable_eq (selector : Name) :
    usesTable m selector = usesTable m' selector := by
  unfold usesTable
  rw [h.protocols_eq, implementers_eq h]

theorem alike_classifyMethods (hcd : Alike c d) :
    Alike { c with methods := c.methods.map (classifyMethod m) }
      { d with methods := d.methods.map (classifyMethod m') } := by
  obtain ⟨ρ, hρ, properties, methods, hproperties, hmethods, rfl⟩ := hcd
  refine ⟨ρ, hρ, properties, _, hproperties, rel_map (fun x y hxy => ?_) hmethods, rfl⟩
  obtain ⟨synthesized, hsynthesized, rfl⟩ := hxy
  unfold classifyMethod
  dsimp only
  rw [usesTable_eq h]
  split
  · exact ⟨synthesized, hsynthesized, rfl⟩
  · exact ⟨synthesized, hsynthesized, rfl⟩

theorem agree_classify :
    Agree (Reorders Alike) (classify m) (classify m') := by
  unfold classify
  refine agree_bind (R := fun _ _ => True) (.of_eq (by rw [h.protocols_eq]) fun _ => trivial)
    fun _ _ _ => ?_
  refine agree_bind (agree_forM h.values fun _ _ => agree_instanceKeys) fun _ _ _ => ?_
  exact agree_pure (h.mapClasses fun _ _ => alike_classifyMethods h)

theorem missingMethods_eq (hm : m.Named) (hcd : Alike c d) :
    missingMethods m c = missingMethods m' d := by
  have hselectors : ((m.chain c).flatMap fun c => c.methods.map (·.selector)) =
      (m'.chain d).flatMap fun c => c.methods.map (·.selector) :=
    flatMap_eq_of_forall₂ (Hierarchy.alike_chain h hm hcd) fun _ _ hup =>
      hup.map_methods_eq (·.selector) fun _ => rfl
  unfold missingMethods
  rw [hselectors, hcd.protocols_eq, hcd.name_eq, h.protocols_eq]

theorem agree_checkConformance (hm : m.Named) :
    Agree (Reorders Alike) (checkConformance m) (checkConformance m') := by
  unfold checkConformance
  refine agree_bind (agree_forM h.values fun c d hcd => ?_) fun _ _ _ => ?_
  · rw [hcd.protocols_eq]
    exact .of_eq rfl fun _ => trivial
  · exact agree_pure (h.addErrors fun _ _ => missingMethods_eq h hm)

end Methods

namespace TypeArguments

open Ast

theorem namesAbove_eq (h : Reorders Alike m m') (hm : m.Named) (fuel : Nat) (visited : List Name)
    (a : Option Name) : namesAbove m fuel visited a = namesAbove m' fuel visited a := by
  induction fuel generalizing visited a with
  | zero => rfl
  | succ fuel ih =>
    cases a with
    | none => rfl
    | some name =>
      have hclass := Hierarchy.rel_class? h hm name
      unfold namesAbove
      generalize m.class? name = c at hclass
      generalize m'.class? name = d at hclass
      cases hclass with
      | none => rfl
      | some hcd => simp only [hcd.superclass_eq, ih]

theorem lineage_eq (h : Reorders Alike m m') (hm : m.Named) (name : Name) :
    lineage m name = lineage m' name := by
  unfold lineage
  rw [h.length_eq, namesAbove_eq h hm]

theorem satisfies_eq (h : Reorders Alike m m') (hm : m.Named) (type constraint : String) :
    satisfies m type constraint = satisfies m' type constraint := by
  have hadopts : ∀ protocol name : Name,
      ((m.class? name).map fun c => c.protocols.contains protocol) =
        (m'.class? name).map fun c => c.protocols.contains protocol := by
    intro protocol name
    refine map_eq_of_rel (Hierarchy.rel_class? h hm name) fun c d hcd => ?_
    rw [hcd.protocols_eq]
  unfold satisfies conformsTo isSameOrSubclass
  simp only [lineage_eq h hm, hadopts]

structure SameChecks (m m' : Module) : Prop where
  satisfies : satisfies m = satisfies m'
  generics : m.generics = m'.generics

namespace SameChecks

variable (h : SameChecks m m')
include h

theorem breaking?_eq : breaking? m = breaking? m' := by
  funext constraint e
  unfold breaking?
  rw [h.satisfies]

theorem entryErrors_eq (container keys values : String) (ns : List Node) :
    entryErrors m container keys values ns = entryErrors m' container keys values ns := by
  have hentry : entryError m = entryError m' := by
    funext role container keys values constraint e
    unfold entryError
    rw [h.breaking?_eq]
  fun_induction entryErrors m container keys values ns with
  | case1 => rfl
  | case2 key =>
    rw [entryErrors, hentry]
  | case3 key value rest ih =>
    rw [entryErrors, hentry, ih]

theorem literalErrors_eq : literalErrors m = literalErrors m' := by
  funext literal args type
  have helement : elementError? m = elementError? m' := by
    funext container constraint e
    unfold elementError?
    rw [h.breaking?_eq]
  unfold literalErrors arrayErrors dictionaryErrors
  simp only [helement, h.entryErrors_eq]

end SameChecks

mutual

theorem checkNode_eq (h : SameChecks m m') (s : GenericState) : (n : Node) →
    checkNode m s n = checkNode m' s n
  | .mk a ns => by
    have hnodes := fun s => checkNodes_eq h s ns
    unfold checkNode checkVarDecl checkAssignment
    simp only [h.literalErrors_eq, h.generics, hnodes]

theorem checkNodes_eq (h : SameChecks m m') (s : GenericState) : (ns : List Node) →
    checkNodes m s ns = checkNodes m' s ns
  | [] => rfl
  | n :: ns => by
    have hnodes := fun s => checkNodes_eq h s ns
    rw [checkNodes, checkNodes, checkNode_eq h s n]
    simp only [hnodes]

end

theorem SameChecks.bodyErrors_eq (h : SameChecks m m') : bodyErrors m = bodyErrors m' := by
  funext body
  cases body with
  | none => rfl
  | some n => simp only [bodyErrors, checkNode_eq h]

variable (h : Reorders Alike m m')

include h

theorem declaredTypes_perm : (declaredTypes m).Perm (declaredTypes m') := by
  have hfunctions : m.functions = m'.functions := by
    cases h
    rfl
  unfold declaredTypes
  rw [hfunctions]
  refine Perm.append (h.values.flatMap_perm fun c d hcd => ?_) (.refl _)
  refine hcd.congr (fun c => c.ivars.map (fun v => (v.name, v.type)) ++
    c.properties.map (fun p => (p.name, p.type)) ++
      c.methods.flatMap fun x => callableTypes x.selector x.returnType x.params) fun c => ?_
  simp only [ClassDecl.unnumbered, map_map, flatMap_map]
  rfl

theorem agree_checkGiven :
    Agree (fun _ _ => True) (checkGiven m) (checkGiven m') := by
  unfold checkGiven
  rw [h.generics_eq]
  split
  · exact agree_forM (.of_perm (declaredTypes_perm h) fun _ _ => rfl) fun e e' hee' =>
      .of_eq (by rw [hee']) fun _ => trivial
  · exact agree_pure trivial

theorem reorders_enrichGenerics :
    Reorders Alike (enrichGenerics m) (enrichGenerics m') := by
  cases h with
  | intro hclasses herrors hdiagnostics =>
    exact .intro (matches_mapValues hclasses fun _ _ => alike_enrichClass _) herrors hdiagnostics

theorem bodies_perm : m.bodies.Perm m'.bodies := by
  cases h with
  | intro hclasses =>
    refine ((values_matches hclasses).flatMap_perm fun c d hcd => ?_).append_right _ |>.append_right _
    refine hcd.congr (fun c => c.methods.map (·.body) ++ c.functions.map (·.body)) fun c => ?_
    simp only [ClassDecl.unnumbered, map_map]
    rfl

theorem agree_validate (hm : m.Named) :
    Agree (Reorders Alike) (validate m) (validate m') := by
  have henriched := reorders_enrichGenerics h
  have hnamed : (enrichGenerics m).Named :=
    hm.of_hierarchy_eq (Module.hierarchy_eq_of_skeleton_eq
      (Module.skeleton_of_values rfl fun _ => ⟨rfl, rfl, rfl⟩))
  have hchecks : SameChecks (enrichGenerics m) (enrichGenerics m') :=
    ⟨funext₂ fun type constraint => satisfies_eq henriched hnamed type constraint, henriched.generics_eq⟩
  unfold validate
  refine agree_bind (agree_checkGiven h) fun _ _ _ => ?_
  dsimp only
  rw [hchecks.bodyErrors_eq]
  refine agree_bind (agree_mapM_of_perm (bodies_perm henriched)) fun errors errors' hperm => ?_
  exact agree_pure (henriched.replace henriched.classes (henriched.errors.append hperm.flatten)
    henriched.diagnostics)

end TypeArguments

end ObjcLowering
