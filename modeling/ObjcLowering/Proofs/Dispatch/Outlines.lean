import ObjcLowering.Proofs.Hierarchy.Lookups

/-!
What the passes that complete a module do to its methods: accessors are added, then the instance methods
are classified.
-/

namespace ObjcLowering

open Hierarchy Lowering Properties List

variable {m m' : Module}

def Method.outline (x : Method) : Name × Bool × Dispatch := (x.selector, x.isClassMethod, x.dispatch)

def ClassDecl.outline (c : ClassDecl) : Name × Option Name × List (Name × Bool × Dispatch) :=
  (c.name, c.superclass, c.methods.map Method.outline)

def Module.outline (m : Module) :
    Table Name Protocol × Table Name (Name × Option Name × List (Name × Bool × Dispatch)) :=
  (m.protocols, m.classes.mapValues ClassDecl.outline)

theorem Module.outline_of_values (hprotocols : m'.protocols = m.protocols)
    (hclasses : m'.classes = m.classes.mapValues f) (hf : ∀ c, (f c).outline = c.outline) :
    m'.outline = m.outline := by
  rw [outline, outline, hprotocols, hclasses, Table.mapValues_mapValues]
  congr 2
  exact funext hf

theorem Module.outline_of_classes (hprotocols : m'.protocols = m.protocols)
    (hclasses : m'.classes = m.classes) : m'.outline = m.outline := by
  rw [outline, outline, hprotocols, hclasses]

theorem Module.exists_method_of_outline_eq (h : m'.outline = m.outline) (hc : c ∈ m'.classes.values)
    (hx : x ∈ c.methods) : ∃ d ∈ m.classes.values, ∃ y ∈ d.methods, y.outline = x.outline := by
  obtain ⟨d, hd, hdc⟩ := Table.exists_of_mapValues_eq (congrArg Prod.snd h) hc
  have hmethods : d.methods.map Method.outline = c.methods.map Method.outline :=
    congrArg (·.2.2) hdc
  obtain ⟨y, hy, hyx⟩ := mem_map.mp (hmethods ▸ mem_map_of_mem hx)
  exact ⟨d, hd, y, hy, hyx⟩

theorem outline_assignIds (h : assignIds m = .ok m') : m'.outline = m.outline := by
  obtain ⟨order, -, hm'⟩ := bind_eq_ok.mp h
  rw [← pure_eq_ok.mp hm', Module.outline, Module.outline]
  simp [Table.mapValues, ClassDecl.outline]

theorem outline_computeDepths (m : Module) : (computeDepths m).outline = m.outline :=
  Module.outline_of_values (f := fun c => { c with depth := depthOf m c }) rfl rfl fun _ => rfl

theorem outline_checkConformance (h : Methods.checkConformance m = .ok m') :
    m'.outline = m.outline := by
  obtain ⟨-, -, hm'⟩ := bind_eq_ok.mp h
  rw [← pure_eq_ok.mp hm']
  rfl

theorem outline_enrichMethod (generics : Table String String) (c : ClassDecl) (x : Method) :
    (TypeArguments.enrichMethod generics c x).outline = x.outline := by
  unfold TypeArguments.enrichMethod
  dsimp only
  split
  · rfl
  · split <;> rfl

theorem outline_validateTypes (h : TypeArguments.validate m = .ok m') : m'.outline = m.outline := by
  obtain ⟨-, -, h⟩ := bind_eq_ok.mp h
  obtain ⟨errors, -, hm'⟩ := bind_eq_ok.mp h
  rw [← pure_eq_ok.mp hm']
  refine Module.outline_of_values (f := TypeArguments.enrichClass m.generics) ?_ ?_ fun c => ?_
  · rfl
  · rfl
  · simp [TypeArguments.enrichClass, ClassDecl.outline, outline_enrichMethod, Function.comp_def]

theorem outline_collectInitializers (m : Module) :
    (Methods.collectInitializers m).outline = m.outline := by
  rw [Methods.collectInitializers, Methods.foldl_addInitializer]
  rfl

def Module.classified (m : Module) : Module :=
  { m with classes := m.classes.mapValues fun c =>
      { c with methods := c.methods.map (Methods.classifyMethod m) } }

theorem classify_eq_ok (h : Methods.classify m = .ok m') : m' = m.classified := by
  obtain ⟨-, -, h⟩ := bind_eq_ok.mp h
  obtain ⟨-, -, hm'⟩ := bind_eq_ok.mp h
  exact (pure_eq_ok.mp hm').symm

theorem complete_outline (hm : m.Named) (h : m.complete = .ok m') :
    ∃ m₁ m₂ : Module, synthesize (warnMissingSupers m) = .ok m₁ ∧ m₂.outline = m₁.outline ∧
      m'.outline = m₂.classified.outline := by
  obtain ⟨m₁, m₂, m₃, m₄, m₅, h₁, h₂, h₃, h₄, h₅, rfl⟩ := Module.exists_passes hm h
  refine ⟨m₁, computeDepths m₂, h₁, ?_, ?_⟩
  · rw [outline_computeDepths, outline_assignIds h₂]
    rfl
  · rw [outline_collectInitializers, outline_validateTypes h₅,
      outline_checkConformance h₄, classify_eq_ok h₃]

def selectorsOf (isClass : Bool) (methods : List Method) : List Name :=
  (methods.filter fun x => x.isClassMethod == isClass).map (·.selector)

def accessorSelectors (p : Property) : List Name :=
  getterOf p :: if p.isReadonly.holds then [] else (setterOf p).toOption.toList

def ClassDecl.accessors (c : ClassDecl) : List Name := c.properties.flatMap accessorSelectors

theorem mem_selectorsOf : s ∈ selectorsOf isClass methods ↔
      ∃ x ∈ methods, x.isClassMethod = isClass ∧ x.selector = s := by
  simp [selectorsOf, and_assoc]

theorem selectorsOf_append (isClass : Bool) (methods : List Method) (x : Method) :
    selectorsOf isClass (methods ++ [x]) =
      selectorsOf isClass methods ++ if x.isClassMethod = isClass then [x.selector] else [] := by
  by_cases h : x.isClassMethod = isClass <;> simp [selectorsOf, filter_append, h]

theorem addMissing_eq_ok (h : addMissing methods x = .ok methods') :
    methods' = if ∃ y ∈ methods, y.selector = x.selector then methods else methods ++ [x] := by
  obtain ⟨key, hkey, h⟩ := bind_eq_ok.mp h
  rw [← pure_eq_ok.mp h, asKey_eq_ok hkey]
  simp

theorem selectorsOf_addMissing (hx : x.isClassMethod = false) (h : addMissing methods x = .ok methods') :
    selectorsOf true methods' = selectorsOf true methods ∧
    (x.selector ∉ selectorsOf true methods →
      selectorsOf false methods' = addNew (selectorsOf false methods) x.selector) := by
  rw [addMissing_eq_ok h]
  split
  · next hmem =>
    refine ⟨rfl, fun hfree => ?_⟩
    have hknown : x.selector ∈ selectorsOf false methods := by
      obtain ⟨y, hy, hselector⟩ := hmem
      cases hkind : y.isClassMethod with
      | false => exact mem_selectorsOf.mpr ⟨y, hy, hkind, hselector⟩
      | true => exact absurd (mem_selectorsOf.mpr ⟨y, hy, hkind, hselector⟩) hfree
    rw [addNew, if_pos (contains_iff_mem.mpr hknown)]
  · next hmem =>
    have hnew : x.selector ∉ selectorsOf false methods := by
      intro hold
      obtain ⟨y, hy, -, hselector⟩ := mem_selectorsOf.mp hold
      exact hmem ⟨y, hy, hselector⟩
    rw [selectorsOf_append, selectorsOf_append, hx, addNew, if_neg (mt contains_iff_mem.mp hnew)]
    exact ⟨append_nil _, fun _ => rfl⟩

theorem selectorsOf_synthesizeProperty (h : synthesizeProperty acc p = .ok acc') :
    selectorsOf true acc'.1.methods = selectorsOf true acc.1.methods ∧
    ((∀ s ∈ accessorSelectors p, s ∉ selectorsOf true acc.1.methods) →
      selectorsOf false acc'.1.methods =
        addAllNew (selectorsOf false acc.1.methods) (accessorSelectors p)) := by
  obtain ⟨⟨ivar, extra⟩, -, h⟩ := bind_eq_ok.mp h
  obtain ⟨methods, hgetter, h⟩ := bind_eq_ok.mp h
  obtain ⟨hclass, hinstance⟩ := selectorsOf_addMissing rfl hgetter
  unfold accessorSelectors
  dsimp only at h
  split at h
  · next hreadonly =>
    cases h
    rw [if_pos hreadonly]
    refine ⟨hclass, fun hfree => ?_⟩
    exact hinstance (hfree _ (.head _))
  · next hreadonly =>
    obtain ⟨selector, hselector, h⟩ := bind_eq_ok.mp h
    obtain ⟨methods', hsetter, h⟩ := bind_eq_ok.mp h
    cases h
    obtain ⟨hclass', hinstance'⟩ := selectorsOf_addMissing rfl hsetter
    have hsetterOf : setterOf p = .ok selector := hselector
    rw [if_neg hreadonly, hsetterOf]
    refine ⟨hclass'.trans hclass, fun hfree => ?_⟩
    have hfree' : selector ∉ selectorsOf true methods := hclass ▸ hfree _ (.tail _ (.head _))
    rw [hinstance' hfree', hinstance (hfree _ (.head _))]
    rfl

theorem selectorsOf_foldlM {ps : List Property} (h : ps.foldlM synthesizeProperty acc = .ok acc')
    (hfree : ∀ s ∈ ps.flatMap accessorSelectors, s ∉ selectorsOf true acc.1.methods) :
    selectorsOf false acc'.1.methods =
      addAllNew (selectorsOf false acc.1.methods) (ps.flatMap accessorSelectors) := by
  induction ps generalizing acc with
  | nil =>
    cases h
    rfl
  | cons p ps ih =>
    obtain ⟨next, hnext, hrest⟩ := foldlM_cons_eq_ok.mp h
    obtain ⟨hclass, hinstance⟩ := selectorsOf_synthesizeProperty hnext
    rw [flatMap_cons] at hfree ⊢
    have hhere := hinstance fun s hs => hfree s (mem_append_left _ hs)
    have hthere := ih hrest fun s hs => hclass ▸ hfree s (mem_append_right _ hs)
    rw [hthere, hhere, addAllNew, addAllNew, addAllNew, foldl_append]

theorem synthesizeClass_eq_ok (h : synthesizeClass c = .ok (c', warnings)) :
    c.properties.foldlM synthesizeProperty ({ c with properties := [] }, []) = .ok (c', warnings) := by
  obtain ⟨-, -, h⟩ := bind_eq_ok.mp h
  obtain ⟨-, -, h⟩ := bind_eq_ok.mp h
  exact h

theorem accessors_numberFrom (next : Nat) (ps : List Property) :
    (numberFrom next ps).flatMap accessorSelectors = ps.flatMap accessorSelectors := by
  induction ps generalizing next with
  | nil => rfl
  | cons p ps ih =>
    rw [numberFrom]
    split
    · rw [flatMap_cons, flatMap_cons, ih]
    · rw [flatMap_cons, flatMap_cons, ih]
      rfl

theorem forall_addMissing {P : Method → Prop}
    (hmethods : ∀ y ∈ methods, P y) (hx : P x) (h : addMissing methods x = .ok methods') :
    ∀ y ∈ methods', P y := by
  rw [addMissing_eq_ok h]
  split
  · exact hmethods
  · intro y hy
    rcases mem_append.mp hy with hy | hy
    · exact hmethods y hy
    · rwa [mem_singleton.mp hy]

theorem direct_synthesizeProperty
    (hmethods : ∀ x ∈ acc.1.methods, x.dispatch = .direct) (h : synthesizeProperty acc p = .ok acc') :
    ∀ x ∈ acc'.1.methods, x.dispatch = .direct := by
  obtain ⟨⟨ivar, extra⟩, -, h⟩ := bind_eq_ok.mp h
  obtain ⟨methods, hgetter, h⟩ := bind_eq_ok.mp h
  have hmiddle := forall_addMissing hmethods rfl hgetter
  dsimp only at h
  split at h
  · cases h
    exact hmiddle
  · obtain ⟨selector, -, h⟩ := bind_eq_ok.mp h
    obtain ⟨methods', hsetter, h⟩ := bind_eq_ok.mp h
    cases h
    exact forall_addMissing hmiddle rfl hsetter

theorem direct_foldlM {ps : List Property} (hmethods : ∀ x ∈ acc.1.methods, x.dispatch = .direct)
    (h : ps.foldlM synthesizeProperty acc = .ok acc') :
    ∀ x ∈ acc'.1.methods, x.dispatch = .direct := by
  induction ps generalizing acc with
  | nil =>
    cases h
    exact hmethods
  | cons p ps ih =>
    obtain ⟨next, hnext, hrest⟩ := foldlM_cons_eq_ok.mp h
    exact ih (direct_synthesizeProperty hmethods hnext) hrest

def WithAccessors (c c' : ClassDecl) : Prop :=
  ∃ next warnings, synthesizeClass { c with properties := numberFrom next c.properties } =
    .ok (c', warnings)

namespace WithAccessors

variable (h : WithAccessors c c')
include h

theorem sameClass : SameClass c c' := by
  obtain ⟨next, warnings, h⟩ := h
  exact (gives_synthesizeClass _).of_ok h

theorem direct (hmethods : ∀ x ∈ c.methods, x.dispatch = .direct) :
    ∀ x ∈ c'.methods, x.dispatch = .direct := by
  obtain ⟨next, warnings, h⟩ := h
  exact direct_foldlM hmethods (synthesizeClass_eq_ok h)

theorem selectors (hfree : ∀ s ∈ c.accessors, s ∉ selectorsOf true c.methods) :
    selectorsOf false c'.methods = addAllNew (selectorsOf false c.methods) c.accessors := by
  obtain ⟨next, warnings, h⟩ := h
  rw [ClassDecl.accessors, ← accessors_numberFrom next] at hfree ⊢
  exact selectorsOf_foldlM (synthesizeClass_eq_ok h) hfree

end WithAccessors

theorem forall₂_numberClasses (h : ((numberClasses n entries).mapM fun (name, cls) => do
      let (cls, warnings) ← synthesizeClass cls
      return ((name, cls), warnings)) = .ok done) :
    Forall₂ (fun e e' => e'.1 = e.1 ∧ WithAccessors e.2 e'.2) entries (done.map (·.1)) := by
  induction entries generalizing n done with
  | nil =>
    cases h
    exact .nil
  | cons e entries ih =>
    obtain ⟨name, c⟩ := e
    obtain ⟨r, hr, rest, hrest, rfl⟩ := mapM_eq_ok_cons.mp h
    obtain ⟨⟨c', warnings⟩, hc', hr⟩ := bind_eq_ok.mp hr
    cases hr
    exact .cons ⟨rfl, n, warnings, hc'⟩ (ih hrest)

theorem forall₂_synthesize (h : synthesize m = .ok m') :
    Forall₂ (fun e e' => e'.1 = e.1 ∧ WithAccessors e.2 e'.2) m.classes.entries
      m'.classes.entries := by
  obtain ⟨done, hdone, h⟩ := bind_eq_ok.mp h
  cases h
  exact forall₂_numberClasses hdone

theorem protocols_synthesize (h : synthesize m = .ok m') : m'.protocols = m.protocols := by
  obtain ⟨done, -, h⟩ := bind_eq_ok.mp h
  cases h
  rfl

def ClassDecl.instanceOutline (c : ClassDecl) : Name × Option Name × List Name :=
  (c.name, c.superclass, selectorsOf false c.methods)

def Module.instanceOutline (m : Module) :
    Table Name Protocol × Table Name (Name × Option Name × List Name) :=
  (m.protocols, m.classes.mapValues ClassDecl.instanceOutline)

def Module.AccessorsFree (m : Module) : Prop :=
  ∀ c ∈ m.classes.values, ∀ s ∈ c.accessors, s ∉ selectorsOf true c.methods

def Module.accessorOutline (m : Module) :
    Table Name Protocol × Table Name (Name × Option Name × List Name) :=
  (m.protocols, m.classes.mapValues fun c =>
    (c.name, c.superclass, addAllNew (selectorsOf false c.methods) c.accessors))

theorem instanceOutline_eq_of_outline_eq (h : m'.outline = m.outline) :
    m'.instanceOutline = m.instanceOutline := by
  have hview : ∀ n : Module, n.instanceOutline = (n.outline.1, n.outline.2.mapValues fun o =>
      (o.1, o.2.1, (o.2.2.filter fun x => x.2.1 == false).map (·.1))) := by
    intro n
    rw [Module.instanceOutline, Module.outline, Table.mapValues_mapValues]
    congr 2
    funext c
    simp [ClassDecl.instanceOutline, ClassDecl.outline, selectorsOf, Method.outline, filter_map,
      Function.comp_def]
  rw [hview, hview, h]

theorem classifyMethod_selector (m : Module) (x : Method) :
    (Methods.classifyMethod m x).selector = x.selector ∧
      (Methods.classifyMethod m x).isClassMethod = x.isClassMethod := by
  unfold Methods.classifyMethod
  split <;> exact ⟨rfl, rfl⟩

theorem instanceOutline_classified (m : Module) : m.classified.instanceOutline = m.instanceOutline := by
  rw [Module.instanceOutline, Module.instanceOutline, Module.classified, Table.mapValues_mapValues]
  congr 2
  funext c
  simp [ClassDecl.instanceOutline, selectorsOf, filter_map, Function.comp_def,
    (classifyMethod_selector m _).1, (classifyMethod_selector m _).2]

theorem mapValues_eq_of_forall₂ {t : Table κ α}
    {u : Table κ β} (h : Forall₂ (fun e e' => e'.1 = e.1 ∧ g e'.2 = f e.2) t.entries u.entries) :
    u.mapValues g = t.mapValues f := by
  obtain ⟨entries⟩ := t
  obtain ⟨entries'⟩ := u
  dsimp only at h
  unfold Table.mapValues
  congr 1
  induction h with
  | nil => rfl
  | @cons e e' _ _ hhead _ ih =>
    have hfirst : (e'.1, g e'.2) = (e.1, f e.2) := Prod.ext hhead.1 hhead.2
    rw [map_cons, map_cons, ih]
    exact congrArg (· :: _) hfirst

theorem instanceOutline_synthesize (h : synthesize m = .ok m') (hfree : m.AccessorsFree) :
    m'.instanceOutline = m.accessorOutline := by
  have hentries := (forall₂_and_left _ _).mpr
    ⟨fun e he => hfree e.2 (Table.mem_values.mpr ⟨e.1, he⟩), forall₂_synthesize h⟩
  rw [Module.instanceOutline, Module.accessorOutline, protocols_synthesize h]
  congr 1
  apply mapValues_eq_of_forall₂
  refine hentries.imp fun e e' he => ?_
  obtain ⟨hfree, hkey, hwith⟩ := he
  obtain ⟨hname, hsuper, -⟩ := hwith.sameClass
  refine ⟨hkey, ?_⟩
  rw [ClassDecl.instanceOutline, hname, hsuper, hwith.selectors hfree]

theorem instanceOutline_complete (hm : m.Named) (h : m.complete = .ok m') (hfree : m.AccessorsFree) :
    m'.instanceOutline = m.accessorOutline := by
  obtain ⟨m₁, m₂, h₁, h₂, h₃⟩ := complete_outline hm h
  have hclasses := classes_warnMissingSupers m
  have hwarned : (warnMissingSupers m).AccessorsFree := by
    rwa [Module.AccessorsFree, hclasses]
  rw [instanceOutline_eq_of_outline_eq h₃, instanceOutline_classified,
    instanceOutline_eq_of_outline_eq h₂, instanceOutline_synthesize h₁ hwarned,
    Module.accessorOutline, Module.accessorOutline, hclasses, warnMissingSupers_eq]

end ObjcLowering
