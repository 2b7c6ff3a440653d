import ObjcLowering.Proofs.Dispatch.Outlines
import ObjcLowering.Proofs.Dispatch.StaticSends

/-! How messages to instances are reached. -/

namespace ObjcLowering

open Ast Hierarchy Lowering Output List Table

variable {m m' n : Module}

def kindOf (m : Module) (s : Name) : Dispatch := if Methods.usesTable m s then .table else .direct

def Module.Unclassified (m : Module) : Prop :=
  ∀ c ∈ m.classes.values, ∀ x ∈ c.methods, x.dispatch = .direct

def Module.Classified (m : Module) : Prop :=
  ∀ c ∈ m.classes.values, ∀ x ∈ c.methods,
    x.dispatch = if x.isClassMethod then .direct else kindOf m x.selector

theorem contains_selectorsOf (methods : List Method) (s : Name) :
    (selectorsOf false methods).contains s =
      methods.any fun x => !x.isClassMethod && x.selector == s := by
  rw [Bool.eq_iff_iff, contains_iff_mem, mem_selectorsOf, any_eq_true]
  simp

theorem ownMethod?_isSome (c : ClassDecl) (s : Name) :
    (ownMethod? c s false).isSome = (selectorsOf false c.methods).contains s := by
  rw [Bool.eq_iff_iff, contains_iff_mem, mem_selectorsOf, ownMethod?, find?_isSome]
  simp [and_comm]

theorem implementers_eq (m : Module) (s : Name) :
    Methods.implementers m s =
      (m.instanceOutline.2.values.filter fun o => o.2.2.contains s).length := by
  rw [Methods.implementers, Module.instanceOutline, values_mapValues, filter_map,
    length_map]
  simp only [Function.comp_def, ClassDecl.instanceOutline, contains_selectorsOf]

theorem kindOf_eq (h : m'.instanceOutline = m.instanceOutline) (s : Name) :
    kindOf m' s = kindOf m s := by
  have hprotocols : m'.protocols = m.protocols := congrArg Prod.fst h
  rw [kindOf, kindOf, Methods.usesTable, Methods.usesTable, implementers_eq, implementers_eq, h,
    hprotocols]

theorem direct_of_synthesize (hnew : m.Unclassified) (h : Properties.synthesize m = .ok m') :
    m'.Unclassified := by
  intro c hc
  obtain ⟨name, hmem⟩ := mem_values.mp hc
  obtain ⟨e, he, -, hwith⟩ := exists_of_mem_forall₂ (forall₂_synthesize h) hmem
  exact hwith.direct (hnew e.2 (mem_values.mpr ⟨e.1, he⟩))

theorem classified_complete (hm : m.Named) (hnew : m.Unclassified) (h : m.complete = .ok m') :
    m'.Classified := by
  obtain ⟨m₁, m₂, h₁, h₂, h₃⟩ := complete_outline hm h
  have hdirect : m₁.Unclassified := by
    apply direct_of_synthesize _ h₁
    rwa [Module.Unclassified, classes_warnMissingSupers]
  have hkind : ∀ s, kindOf m' s = kindOf m₂ s := by
    apply kindOf_eq
    rw [instanceOutline_eq_of_outline_eq h₃, instanceOutline_classified]
  intro c hc x hx
  -- back to the method before it was classified, and from there to one with its accessors just made
  obtain ⟨d, hd, y, hy, hyx⟩ := Module.exists_method_of_outline_eq h₃ hc hx
  rw [Module.classified, values_mapValues] at hd
  obtain ⟨d₂, hd₂, rfl⟩ := mem_map.mp hd
  obtain ⟨y₂, hy₂, rfl⟩ := mem_map.mp hy
  obtain ⟨d₁, hd₁, y₁, hy₁, hyy⟩ := Module.exists_method_of_outline_eq h₂ hd₂ hy₂
  have hbefore : y₂.dispatch = .direct := by
    rw [← hdirect d₁ hd₁ y₁ hy₁]
    exact (congrArg (·.2.2) hyy).symm
  have hselector : y₂.selector = x.selector :=
    (classifyMethod_selector m₂ y₂).1.symm.trans (congrArg (·.1) hyx)
  have hclass : y₂.isClassMethod = x.isClassMethod :=
    (classifyMethod_selector m₂ y₂).2.symm.trans (congrArg (·.2.1) hyx)
  have hafter : (Methods.classifyMethod m₂ y₂).dispatch = x.dispatch := congrArg (·.2.2) hyx
  rw [← hafter, hkind, ← hselector, ← hclass, Methods.classifyMethod, kindOf]
  cases y₂.isClassMethod with
  | true => exact hbefore
  | false =>
    cases Methods.usesTable m₂ y₂.selector with
    | true => rfl
    | false => exact hbefore

/-- In the order of the classes and of their methods, no class method of the selector comes before the
first instance method. -/
def OpensWithInstance (m : Module) (s : Name) : Prop :=
  ∀ before x after, m.classes.values.flatMap (·.methods) = before ++ x :: after →
    x.selector = s → x.isClassMethod = true →
    ∃ y ∈ before, y.selector = s ∧ y.isClassMethod = false

def firstMethod? (m : Module) (s : Name) : Option Method :=
  (m.classes.values.flatMap (·.methods)).find? fun x => x.selector == s

theorem dispatchOf_eq (m : Module) (s : Name) :
    dispatchOf m s = ((firstMethod? m s).map (·.dispatch)).getD .direct := by
  rw [dispatchOf, firstMethod?, find?_flatMap]
  rfl

theorem opensWithInstance_iff (h : firstMethod? m s = some x) :
    OpensWithInstance m s ↔ x.isClassMethod = false := by
  obtain ⟨hx, before, after, hsplit, hbefore⟩ := find?_eq_some_iff_append.mp h
  rw [beq_iff_eq] at hx
  have hnotMem : ∀ y ∈ before, y.selector ≠ s := fun y hy => by simpa using hbefore y hy
  constructor
  · intro hopens
    cases hclass : x.isClassMethod with
    | false => rfl
    | true =>
      obtain ⟨y, hy, hselector, -⟩ := hopens before x after hsplit hx hclass
      exact absurd hselector (hnotMem y hy)
  · intro hinstance front y rest hsplit' hy hclass
    -- a class method `y` of the selector is not the first one `x`, so it stands behind it
    rw [hsplit, append_eq_append_iff] at hsplit'
    obtain ⟨between, hfront, hrest⟩ | ⟨between, hfront, hrest⟩ := hsplit'
    · cases between with
      | nil => cases hrest; rw [hinstance] at hclass; cases hclass
      | cons z between =>
        cases hrest
        exact ⟨x, by simp [hfront], hx, hinstance⟩
    · cases between with
      | nil => cases hrest; rw [hinstance] at hclass; cases hclass
      | cons z between =>
        cases hrest
        exact absurd hy (hnotMem y (by simp [hfront]))

theorem exists_firstMethod? (hs : ∃ c ∈ m.classes.values, (ownMethod? c s false).isSome) :
    ∃ c ∈ m.classes.values, ∃ x ∈ c.methods, firstMethod? m s = some x ∧ x.selector = s := by
  obtain ⟨c, hc, hown⟩ := hs
  obtain ⟨y, hy⟩ := Option.isSome_iff_exists.mp hown
  obtain ⟨hy, hselector, -⟩ := ownMethod?_eq_some hy
  have hsome : (firstMethod? m s).isSome = true :=
    find?_isSome.mpr ⟨y, mem_flatMap.mpr ⟨c, hc, hy⟩, beq_iff_eq.mpr hselector⟩
  obtain ⟨x, hx⟩ := Option.isSome_iff_exists.mp hsome
  obtain ⟨d, hd, hmem⟩ := mem_flatMap.mp (mem_of_find?_eq_some hx)
  have hselector := find?_some hx
  exact ⟨d, hd, x, hmem, hx, by simpa using hselector⟩

theorem dispatchOf_eq_kindOf_iff (hm : m.Classified)
    (hs : ∃ c ∈ m.classes.values, (ownMethod? c s false).isSome) :
    dispatchOf m s = kindOf m s ↔ (kindOf m s = .table → OpensWithInstance m s) := by
  obtain ⟨c, hc, x, hx, hfirst, hselector⟩ := exists_firstMethod? hs
  have hdispatch := hm c hc x hx
  rw [dispatchOf_eq, hfirst, Option.map_some, Option.getD_some, hdispatch, hselector,
    opensWithInstance_iff hfirst]
  cases x.isClassMethod with
  | false => exact iff_of_true rfl fun _ => rfl
  | true => cases kindOf m s <;> simp

section

variable {e : Node}

theorem callee_of_unknown_table (hkind : e.receiverKind = "instance")
    (hknown : knownReceiver env.module (receiver? e) = .ok none)
    (h : dispatchOf env.module e.selector = .table) : callee env e = .ok (tableMacro e) := by
  rw [callee_of_instance hkind, instanceCallee, hknown]
  simp [bind, Except.bind, h, pure, Except.pure]

theorem callee_of_unknown_direct (hkind : e.receiverKind = "instance")
    (hknown : knownReceiver env.module (receiver? e) = .ok none)
    (hcls : assumedClass env e = .ok cls) (h : dispatchOf env.module e.selector = .direct) :
    callee env e = .ok (functionOf (definingClass env.module cls e.selector) e) := by
  rw [callee_of_instance hkind, instanceCallee, hknown]
  simp [bind, Except.bind, h, hcls, pure, Except.pure]

end

theorem has_foldl_first (methods : List Method) (t : Table Name Method) (s : Name) :
    (methods.foldl (fun t x => if t.has x.selector then t else t.set x.selector x) t).has s = true ↔
      t.has s = true ∨ ∃ x ∈ methods, x.selector = s := by
  induction methods generalizing t with
  | nil => simp
  | cons x methods ih =>
    rw [foldl_cons, ih]
    have hstep : (if t.has x.selector then t else t.set x.selector x).has s = true ↔
        t.has s = true ∨ x.selector = s := by
      split
      · next hhas =>
        constructor
        · exact .inl
        · rintro (h | rfl)
          · exact h
          · exact hhas
      · rw [has, find?_set]
        by_cases hs : s = x.selector
        · simp [hs]
        · simp [hs, Ne.symm hs, has]
    rw [hstep, or_assoc]
    simp

theorem has_firstTableMethods (hm : m.Classified)
    (hs : ∃ c ∈ m.classes.values, (ownMethod? c s false).isSome) :
    (firstTableMethods m).has s = true ↔ kindOf m s = .table := by
  rw [firstTableMethods, has_foldl_first]
  constructor
  · rintro (h | ⟨x, hx, rfl⟩)
    · cases h
    · obtain ⟨c, hc, hx⟩ := mem_flatMap.mp hx
      obtain ⟨hx, hkind⟩ := mem_filter.mp hx
      rw [Bool.and_eq_true, beq_iff_eq, Bool.not_eq_true'] at hkind
      have hdispatch := hm c hc x hx
      rw [hkind.1, hkind.2] at hdispatch
      exact hdispatch.symm
  · intro hkind
    obtain ⟨c, hc, hown⟩ := hs
    obtain ⟨x, hx⟩ := Option.isSome_iff_exists.mp hown
    obtain ⟨hmem, hselector, hclass⟩ := ownMethod?_eq_some hx
    have hdispatch := hm c hc x hmem
    rw [hclass, hselector, hkind] at hdispatch
    refine .inr ⟨x, mem_flatMap.mpr ⟨c, hc, mem_filter.mpr ⟨hmem, ?_⟩⟩, hselector⟩
    simp [hdispatch, hclass]

theorem mem_of_mapM_eq_ok {f : α → Except Fault β} {xs : List α}
    (h : xs.mapM f = .ok ys) : y ∈ ys ↔ ∃ x ∈ xs, f x = .ok y := by
  induction xs generalizing ys with
  | nil =>
    cases h
    simp
  | cons x xs ih =>
    obtain ⟨z, hz, zs, hzs, rfl⟩ := mapM_eq_ok_cons.mp h
    rw [mem_cons, ih hzs]
    constructor
    · rintro (rfl | ⟨x', hx', hy⟩)
      · exact ⟨x, .head _, hz⟩
      · exact ⟨x', .tail _ hx', hy⟩
    · rintro ⟨x', hx', hy⟩
      cases hx' with
      | head => exact .inl (Except.ok.inj (hy.symm.trans hz))
      | tail _ hx' => exact .inr ⟨x', hx', hy⟩

theorem checkTable_eq_ok (h : checkTable s x = .ok name) : s = .text name := by
  obtain ⟨text, htext, h⟩ := bind_eq_ok.mp h
  obtain ⟨-, -, h⟩ := bind_eq_ok.mp h
  obtain ⟨-, -, h⟩ := bind_eq_ok.mp h
  cases h
  exact textOr_eq_ok htext

theorem tableMethods_eq_ok (h : tableMethods m = .ok methods) :
    (Json.sortBy (·.1) (firstTableMethods m).entries).mapM (fun (selector, method) => do
      return (← checkTable selector method, method)) = .ok methods := by
  obtain ⟨-, -, h⟩ := bind_eq_ok.mp h
  obtain ⟨ms, hms, h⟩ := bind_eq_ok.mp h
  dsimp only at h
  split at h
  · obtain ⟨-, -, h⟩ := bind_eq_ok.mp h
    cases h
    exact hms
  · cases h
    exact hms

theorem mem_tableMethods (h : tableMethods m = .ok methods)
    (s : String) : (∃ x, (s, x) ∈ methods) ↔ (firstTableMethods m).has (.text s) = true := by
  have hmapM := tableMethods_eq_ok h
  rw [has_iff_mem_names, mem_names]
  constructor
  · rintro ⟨x, hx⟩
    obtain ⟨⟨selector, y⟩, hy, hcheck⟩ := (mem_of_mapM_eq_ok hmapM).mp hx
    obtain ⟨name, hname, hpair⟩ := bind_eq_ok.mp hcheck
    cases hpair
    rw [← checkTable_eq_ok hname]
    exact ⟨_, mem_mergeSort.mp hy⟩
  · rintro ⟨x, hx⟩
    obtain ⟨r, hr⟩ := exists_eq_ok_of_mapM hmapM _ (mem_mergeSort.mpr hx)
    obtain ⟨name, hname, hpair⟩ := bind_eq_ok.mp hr
    obtain rfl : s = name := Json.text.inj (checkTable_eq_ok hname)
    cases hpair
    exact ⟨x, (mem_of_mapM_eq_ok hmapM).mpr ⟨_, mem_mergeSort.mpr hx, hr⟩⟩

theorem tableEntries_eq_nearest_iff (hm : m.Resolved) (hs : s ≠ "dealloc") (hc : c ∈ m.classes.values) :
    (∀ impl, (c.name.plain, impl) ∈ tableEntries m s ↔
      ∃ d, nearest? m c s false = some d ∧ d.name.plain = impl) ↔ InstancesFirst m c s := by
  have himplementing : implementingClass? m c s = firstWith? m c s :=
    implementingClass?_eq fun h => hs (Json.text.inj h)
  have hvalues := (hm.ascends hc).subset_values hc
  simp only [mem_tableEntries hm.named hc, himplementing]
  rw [← firstWith?_eq_nearest?_iff]
  constructor
  · intro hall
    cases hfirst : firstWith? m c s with
    | none =>
      cases hnearest : nearest? m c s false with
      | none => rfl
      | some d =>
        obtain ⟨e, he, -⟩ := (hall d.name.plain).mpr ⟨d, hnearest, rfl⟩
        rw [hfirst] at he
        cases he
    | some e =>
      obtain ⟨d, hd, hname⟩ := (hall e.name.plain).mp ⟨e, hfirst, rfl⟩
      have hdmem := hvalues (mem_of_find?_eq_some hd)
      have hemem := hvalues (mem_of_find?_eq_some hfirst)
      rw [hd, (hm.named.plain_name_inj hdmem hemem).mp hname]
  · intro h impl
    rw [h]

def ClassDecl.withoutClassMethods (c : ClassDecl) : ClassDecl :=
  { c with methods := c.methods.filter fun x => !x.isClassMethod }

def Module.withoutClassMethods (m : Module) : Module :=
  { m with classes := m.classes.mapValues ClassDecl.withoutClassMethods }

theorem accessorOutline_withoutClassMethods (m : Module) :
    m.withoutClassMethods.accessorOutline = m.accessorOutline := by
  have hselectors : ∀ methods : List Method,
      selectorsOf false (methods.filter fun x => !x.isClassMethod) = selectorsOf false methods := by
    intro methods
    rw [selectorsOf, selectorsOf, filter_filter]
    congr 2
    funext x
    cases x.isClassMethod <;> rfl
  rw [Module.accessorOutline, Module.accessorOutline, Module.withoutClassMethods,
    mapValues_mapValues]
  congr 2
  funext c
  simp [ClassDecl.withoutClassMethods, hselectors, ClassDecl.accessors]

section

variable (h : m.instanceOutline = n.instanceOutline)

include h

theorem map_parent?
    (hcd : c.instanceOutline = d.instanceOutline) :
    (m.parent? c).map ClassDecl.instanceOutline = (n.parent? d).map ClassDecl.instanceOutline := by
  have hsuper : c.superclass = d.superclass := congrArg (·.2.1) hcd
  rw [Module.parent?, Module.parent?, hsuper]
  cases stated? d.superclass with
  | none => rfl
  | some up =>
    have hclasses : m.classes.mapValues ClassDecl.instanceOutline =
        n.classes.mapValues ClassDecl.instanceOutline := congrArg Prod.snd h
    have hfind := congrArg (fun t => t.find? up) hclasses
    simp only [find?_mapValues] at hfind
    exact hfind

theorem nearest?_name_eq
    (hcd : c.instanceOutline = d.instanceOutline) (s : Name) :
    (nearest? m c s false).map (·.name) = (nearest? n d s false).map (·.name) := by
  have hview : ∀ (k : Module) (e : ClassDecl), (nearest? k e s false).map (·.name) =
      (((k.chain e).map ClassDecl.instanceOutline).find? fun o => o.2.2.contains s).map (·.1) := by
    intro k e
    rw [find?_map, Option.map_map, nearest?]
    simp only [ownMethod?_isSome]
    rfl
  have hlength : m.classes.entries.length = n.classes.entries.length := by
    simpa [Module.instanceOutline, mapValues] using
      congrArg (fun o => o.2.entries.length) h
  rw [hview, hview, Module.chain, Module.chain, hlength, Module.map_chainFrom (map_parent? h) hcd]

theorem exists_instanceOutline_eq
    (hc : c ∈ m.classes.values) : ∃ d ∈ n.classes.values, c.instanceOutline = d.instanceOutline := by
  obtain ⟨d, hd, hdc⟩ := exists_of_mapValues_eq (congrArg Prod.snd h) hc
  exact ⟨d, hd, hdc.symm⟩

end

def ReachedBy (m : Module) (s : Name) (kind : Dispatch) : Prop :=
  ∀ c ∈ m.classes.values, ∀ x ∈ c.methods, x.selector = s → x.isClassMethod = false →
    x.dispatch = kind

theorem Module.Classified.reachedBy (h : m.Classified) (s : Name) : ReachedBy m s (kindOf m s) := by
  intro c hc x hx hselector hclass
  rw [h c hc x hx, hclass, hselector]
  rfl

/-- The instance methods of a selector are all reached in one way, and there is a table if that way is
through one. Messages are sent in that way unless a class method is the first of all methods, and the
entry of the table for a class is the nearest instance method unless a class method is nearer. Neither
the way nor the nearest instance method changes with the class methods, as long as these take no room
from accessors. -/
theorem instance_dispatch_meets_class_methods (m m' : Module) (s : String) (hm : m.Named)
    (hnew : m.Unclassified) (hdone : m.complete = .ok m')
    (hs : ∃ c ∈ m'.classes.values, (ownMethod? c s false).isSome) :
    ∃ kind, ReachedBy m' s kind ∧
      (∀ methods, tableMethods m' = .ok methods → ((∃ x, (s, x) ∈ methods) ↔ kind = .table)) ∧
      (dispatchOf m' s = kind ↔ (kind = .table → OpensWithInstance m' s)) ∧
      (∀ (env : Env) (e : Node), env.module = m' → e.selector = .text s → e.receiverKind = "instance" →
        knownReceiver m' (receiver? e) = .ok none →
        (dispatchOf m' s = .table → Writes env e ("OZ_PROTOCOL_SEND_" ++ cSelector s)) ∧
        (dispatchOf m' s = .direct → ∀ cls, assumedClass env e = .ok cls →
          Writes env e ((definingClass m' cls s).plain ++ "_" ++ cSelector s))) ∧
      (s ≠ "dealloc" → ∀ c ∈ m'.classes.values,
        ((∀ impl, (c.name.plain, impl) ∈ tableEntries m' s ↔
          ∃ d, nearest? m' c s false = some d ∧ d.name.plain = impl) ↔ InstancesFirst m' c s)) ∧
      ∀ n n' : Module, n.Named → n.Unclassified → n.complete = .ok n' →
        n.withoutClassMethods = m.withoutClassMethods → m.AccessorsFree → n.AccessorsFree →
        ReachedBy n' s kind ∧ ∀ c ∈ m'.classes.values, ∃ d ∈ n'.classes.values, d.name = c.name ∧
          (nearest? n' d s false).map (·.name) = (nearest? m' c s false).map (·.name) := by
  have hclassified := classified_complete hm hnew hdone
  refine ⟨kindOf m' s, hclassified.reachedBy s, ?_, dispatchOf_eq_kindOf_iff hclassified hs, ?_, ?_, ?_⟩
  · intro methods hmethods
    rw [mem_tableMethods hmethods, has_firstTableMethods hclassified hs]
  · rintro env e rfl hselector hkind hknown
    have hnot : ¬ IsRefused e := fun h => absurd (h.1.symm.trans hkind) (by decide)
    constructor
    · intro htable
      rw [← hselector] at htable
      rw [← tableMacro_of_selector hselector]
      exact writes_of_callee (callee_of_unknown_table hkind hknown htable) hnot
    · intro hdirect cls hcls
      rw [← hselector] at hdirect
      rw [← functionOf_of_selector _ hselector, ← hselector]
      exact writes_of_callee (callee_of_unknown_direct hkind hknown hcls hdirect) hnot
  · intro hdealloc c hc
    exact tableEntries_eq_nearest_iff (.completed hm hdone) hdealloc hc
  · intro n n' hn hnewn hdonen hsame hfree hfreen
    have houtline : m'.instanceOutline = n'.instanceOutline := by
      rw [instanceOutline_complete hm hdone hfree, instanceOutline_complete hn hdonen hfreen,
        ← accessorOutline_withoutClassMethods m, ← hsame, accessorOutline_withoutClassMethods]
    constructor
    · rw [kindOf_eq houtline]
      exact (classified_complete hn hnewn hdonen).reachedBy s
    · intro c hc
      obtain ⟨d, hd, hcd⟩ := exists_instanceOutline_eq houtline hc
      exact ⟨d, hd, (congrArg Prod.fst hcd).symm, (nearest?_name_eq houtline hcd s).symm⟩

/-! The family again. The last pass orders the classes, but leaves them alone. -/

def Module.completeClasses (m : Module) : Except Fault Module := do
  let m ← Hierarchy.validate m
  let m ← Properties.synthesize m
  let m ← Hierarchy.assignIds (Methods.checkDuplicates m)
  let m ← Methods.classify (Hierarchy.computeDepths m)
  let m ← Methods.checkConformance m
  TypeArguments.validate m

theorem complete_of_completeClasses (h : m.completeClasses = .ok m') :
    m.complete = .ok (Methods.collectInitializers m') := by
  have hlast : m.complete = m.completeClasses >>= fun m => pure (Methods.collectInitializers m) := by
    simp [Module.complete, Module.completeClasses]
  rw [hlast, h]
  rfl

theorem chain_eq_of_classes_eq (h : m'.classes = m.classes) : m'.chain = m.chain := by
  have hparent : m'.parent? = m.parent? := by
    funext c
    rw [Module.parent?, Module.parent?]
    unfold Module.class?
    rw [h]
  funext c
  rw [Module.chain, Module.chain, h]
  simpa using Module.map_chainFrom (f := id) (g := id) (fun hcd => by cases hcd; rw [hparent]) (Eq.refl c)

theorem mem_tableEntries_of_firstWith? (hm : m.Resolved) (hclasses : m.classes = n.classes)
    (hc : c ∈ m.classes.values) (hs : s ≠ "dealloc")
    (h : (firstWith? n c s).map (·.name) = some (.text impl)) :
    (c.name.plain, impl) ∈ tableEntries m s := by
  obtain ⟨d, hd, hname⟩ := Option.map_eq_some_iff.mp h
  refine (mem_tableEntries hm.named hc).mpr ⟨d, ?_, by rw [hname]; rfl⟩
  rw [implementingClass?_eq fun h => hs (Json.text.inj h), ← hd, firstWith?, firstWith?,
    chain_eq_of_classes_eq hclasses]

theorem getD_mem_values (h : (m.class? a).isSome = true) : (m.class? a).getD default ∈ m.classes.values := by
  obtain ⟨c, hc⟩ := Option.isSome_iff_exists.mp h
  rw [hc]
  exact Module.mem_values_of_class? hc

def familyDone : Module := (family .direct).completeClasses.toOption.getD {}

theorem complete_family :
    (family .direct).complete = .ok (Methods.collectInitializers familyDone) :=
  complete_of_completeClasses rfl

theorem unclassified_family : (family .direct).Unclassified := by
  simp [Module.Unclassified, family, Module.ofMethods, values, bareMethod]

theorem size_sent_as_reached :
    ∃ m', (family .direct).complete = .ok m' ∧
      ReachedBy m' "size" (dispatchOf m' "size") := by
  have hclasses := Methods.classes_collectInitializers familyDone
  obtain ⟨kind, hreached, -, hdispatch, -⟩ := instance_dispatch_meets_class_methods (family .direct) _
    "size" (named_family .direct) unclassified_family complete_family (by
      rw [hclasses]
      decide +kernel)
  refine ⟨_, complete_family, ?_⟩
  have hnone : ∀ x ∈ familyDone.classes.values.flatMap (·.methods),
      x.selector = .text "size" → x.isClassMethod = false := by
    decide +kernel
  have hopens : OpensWithInstance (Methods.collectInitializers familyDone) "size" := by
    intro before x after hsplit hselector hclass
    rw [hclasses] at hsplit
    have hinstance := hnone x (by simp [hsplit]) hselector
    rw [hinstance] at hclass
    cases hclass
  rwa [hdispatch.mpr fun _ => hopens]

def midDone : ClassDecl := (familyDone.class? "Mid").getD default

/-- A class method that comes first among all methods of its selector has messages sent directly, and
one that is nearer than the instance method stands in the table. -/
theorem class_methods_interfere :
    ∃ m', (family .direct).complete = .ok m' ∧ ReachedBy m' "run" .table ∧
      dispatchOf m' "run" = .direct ∧
      ∃ c ∈ m'.classes.values, (c.name.plain, "Mid") ∈ tableEntries m' "run" ∧
        (nearest? m' c "run" false).map (·.name) = some "Base" := by
  have hclasses := Methods.classes_collectInitializers familyDone
  have hchain := chain_eq_of_classes_eq hclasses
  have hm : (Methods.collectInitializers familyDone).Resolved :=
    .completed (named_family .direct) complete_family
  have hmem : midDone ∈ (Methods.collectInitializers familyDone).classes.values := by
    rw [hclasses]
    exact getD_mem_values (by decide +kernel)
  refine ⟨_, complete_family, ?_, ?_, midDone, hmem, ?_, ?_⟩
  · rw [ReachedBy, hclasses]
    decide +kernel
  · rw [dispatchOf, hclasses]
    decide +kernel
  · exact mem_tableEntries_of_firstWith? hm hclasses hmem (by decide) (by decide +kernel)
  · rw [nearest?, hchain]
    decide +kernel

end ObjcLowering
