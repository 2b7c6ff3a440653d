import ObjcLowering.Module.Complete
import ObjcLowering.Proofs.Hierarchy.Ancestry
import ObjcLowering.Proofs.Nodes

/-!
The passes that complete a module keep its classes and their superclasses, and apart from cycles they
refuse only values of the wrong kind.
-/

namespace ObjcLowering

open List

/-- A value of the wrong kind, or an empty text where a name is asked for. -/
def Fault.IsMisfit (f : Fault) : Prop := f = .wrongValue ∨ f = .unfit ∨ f = .outOfRange

/-- A computation gives a result with a property, or meets a value of the wrong kind. -/
def Gives {α : Type} (Q : α → Prop) : Except Fault α → Prop
  | .ok a => Q a
  | .error f => f.IsMisfit

section Results

variable {e : Except Fault α}

theorem Gives.mono (h : Gives Q e) (hle : ∀ a, Q a → R a) : Gives R e := by
  cases e with
  | ok a => exact hle a h
  | error f => exact h

theorem Gives.of_ok (h : Gives Q e) (he : e = .ok a) : Q a := by
  rw [he] at h
  exact h

theorem Gives.of_error (h : Gives Q e) (he : e = .error f) : f.IsMisfit := by
  rw [he] at h
  exact h

theorem gives_pure (h : Q a) : Gives Q (pure a : Except Fault α) := h

theorem gives_bind (h : Gives Q e) (hnext : ∀ a, Q a → Gives S (k a)) : Gives S (e >>= k) := by
  cases e with
  | ok a => exact hnext a h
  | error f => exact h

theorem gives_then (h : Gives (fun _ => True) e) (hnext : ∀ a, Gives S (k a)) : Gives S (e >>= k) :=
  gives_bind h fun a _ => hnext a

theorem gives_discard (h : Gives (fun _ => True) e) : Gives (fun _ => True) (discard e) := by
  cases e with
  | ok a => trivial
  | error f => exact h

theorem gives_forM {xs : List α}
    (h : ∀ x ∈ xs, Gives (fun _ => True) (f x)) : Gives (fun _ => True) (xs.forM f) := by
  induction xs with
  | nil => trivial
  | cons x xs ih =>
    exact gives_then (h x (.head _)) fun _ => ih fun y hy => h y (.tail _ hy)

theorem gives_mapM (h : ∀ x ∈ xs, Gives (P x) (f x)) : Gives (Forall₂ P xs) (xs.mapM f) := by
  induction xs with
  | nil => exact .nil
  | cons x xs ih =>
    rw [mapM_cons]
    refine gives_bind (h x (.head _)) fun y hy => ?_
    refine gives_bind (ih fun z hz => h z (.tail _ hz)) fun ys hys => ?_
    exact gives_pure (.cons hy hys)

theorem gives_foldlM {xs : List α} (hb : S b)
    (h : ∀ b x, S b → Gives S (f b x)) : Gives S (xs.foldlM f b) := by
  induction xs generalizing b with
  | nil => exact hb
  | cons x xs ih =>
    rw [foldlM_cons]
    exact gives_bind (h b x hb) fun b hb => ih hb

theorem gives_filterMapM {xs : List α}
    (h : ∀ x, Gives (fun _ => True) (f x)) : Gives (fun _ => True) (xs.filterMapM f) := by
  induction xs with
  | nil => trivial
  | cons x xs ih =>
    rw [filterMapM_cons]
    refine gives_then (h x) fun y => ?_
    cases y with
    | none => exact ih
    | some y => exact gives_then ih fun _ => trivial

end Results

theorem gives_asKey (j : Json) : Gives (fun _ => True) j.asKey := by
  unfold Json.asKey
  split
  · trivial
  · exact .inl rfl

theorem gives_keys {xs : List α} (key : α → Json) :
    Gives (fun _ => True) (xs.forM fun x => discard (key x).asKey) :=
  gives_forM fun _ _ => gives_discard (gives_asKey _)

theorem gives_textOr (hf : f.IsMisfit) (j : Json) : Gives (fun _ => True) (j.textOr f) := by
  cases j <;> trivial

theorem gives_checked (t : SourceType) : Gives (fun _ => True) t.checked := by
  unfold SourceType.checked
  split
  · trivial
  · exact .inr (.inl rfl)

theorem gives_get [Inhabited α] (p : Ast.Slot α) : Gives (fun _ => True) p.get := by
  cases p <;> first | trivial | exact .inr (.inl rfl)

theorem gives_qualType (n : Ast.Node) : Gives (fun _ => True) n.qualType :=
  gives_then (gives_get _) fun _ => trivial

theorem gives_referencedName (n : Ast.Node) : Gives (fun _ => True) n.referencedName :=
  gives_then (gives_get _) fun _ => trivial

variable {m m' : Module}

namespace Module

def hierarchy (m : Module) : List (Name × Name × Option Name) :=
  m.classes.entries.map fun e => (e.1, e.2.name, e.2.superclass)

def skeleton (m : Module) : List (Name × Name × Option Name × Int) :=
  m.classes.entries.map fun e => (e.1, e.2.name, e.2.superclass, e.2.id)

theorem hierarchy_eq_map_skeleton (m : Module) :
    m.hierarchy = m.skeleton.map fun e => (e.1, e.2.1, e.2.2.1) := by
  simp [hierarchy, skeleton]

theorem hierarchy_eq_of_skeleton_eq (h : m'.skeleton = m.skeleton) :
    m'.hierarchy = m.hierarchy := by
  rw [hierarchy_eq_map_skeleton, h, hierarchy_eq_map_skeleton]

theorem names_eq_of_hierarchy_eq (h : m'.hierarchy = m.hierarchy) :
    m'.classes.names = m.classes.names := by
  have hnames := congrArg (map (·.1)) h
  simpa [hierarchy, Table.names, Function.comp_def] using hnames

theorem Named.of_entries (hm : m.Named) (hnodup : m'.classes.names.Nodup)
    (hentry : ∀ e ∈ m'.classes.entries, ∃ d ∈ m.classes.entries,
      d.1 = e.1 ∧ d.2.name = e.2.name ∧ d.2.superclass = e.2.superclass) : m'.Named := by
  refine ⟨hnodup, fun e he => ?_, fun e he => ?_, fun e he => ?_⟩
  all_goals obtain ⟨d, hd, hkey, hname, hup⟩ := hentry e he
  · rw [← hname, ← hkey, hm.name_eq d hd]
  · rw [← hkey, hm.isText d hd]
  · rw [← hup]
    exact hm.isText_superclass d hd

theorem Named.of_hierarchy_eq (hm : m.Named) (h : m'.hierarchy = m.hierarchy) : m'.Named := by
  refine hm.of_entries (names_eq_of_hierarchy_eq h ▸ hm.nodup) fun e he => ?_
  have hmem : (e.1, e.2.name, e.2.superclass) ∈ m'.hierarchy :=
    mem_map_of_mem (f := fun e => (e.1, e.2.name, e.2.superclass)) he
  rw [h] at hmem
  obtain ⟨d, hd, hde⟩ := mem_map.mp hmem
  simp only [Prod.mk.injEq] at hde
  exact ⟨d, hd, hde⟩

theorem skeleton_of_values (h : m'.classes = m.classes.mapValues f)
    (hf : ∀ c, (f c).name = c.name ∧ (f c).superclass = c.superclass ∧ (f c).id = c.id) :
    m'.skeleton = m.skeleton := by
  unfold skeleton
  rw [h, Table.mapValues, map_map]
  refine map_congr_left fun e _ => ?_
  simp [hf e.2]

end Module

namespace Hierarchy

def SameLinks (m m' : Module) : Prop :=
  ∀ a up, (∃ c ∈ m.classes.values, c.name = a ∧ c.superclass = up) ↔
    ∃ c ∈ m'.classes.values, c.name = a ∧ c.superclass = up

theorem exists_link_iff (hm : m.Named) : (∃ c ∈ m.classes.values, c.name = a ∧ c.superclass = up) ↔
      (m.class? a).map (·.superclass) = some up := by
  rw [Option.map_eq_some_iff]
  constructor
  · rintro ⟨c, hc, rfl, hup⟩
    exact ⟨c, hm.class?_name hc, hup⟩
  · rintro ⟨c, hc, hup⟩
    exact ⟨c, Module.mem_values_of_class? hc, hm.name_of_class? hc, hup⟩

theorem SameLinks.above_eq (h : SameLinks m m') (hm : m.Named) (hm' : m'.Named) :
    above m a = above m' a := by
  have hsuper : (m.class? a).map (·.superclass) = (m'.class? a).map (·.superclass) := by
    apply Option.ext
    intro up
    rw [← exists_link_iff hm, ← exists_link_iff hm', h a up]
  have hjoin : ∀ c : Option ClassDecl, c.bind (·.superclass) = (c.map (·.superclass)).join := by
    intro c
    cases c <;> rfl
  rw [above, above, hjoin, hsuper, ← hjoin]

theorem SameLinks.climbs (h : SameLinks m m') (hm : m.Named) (hm' : m'.Named) (hclimbs : Climbs m a names) :
    Climbs m' a names := by
  induction hclimbs with
  | top hnone => exact .top (h.above_eq hm hm' ▸ hnone)
  | up hsome _ ih => exact .up (h.above_eq hm hm' ▸ hsome) ih

theorem sameLinks_of_hierarchy_eq (h : m'.hierarchy = m.hierarchy) : SameLinks m' m := by
  have hvalues : m'.classes.values.map (fun c => (c.name, c.superclass))
      = m.classes.values.map fun c => (c.name, c.superclass) := by
    have hpairs := congrArg (map (·.2)) h
    simpa [Module.hierarchy, Table.values, Function.comp_def] using hpairs
  intro a up
  have hmem : (a, up) ∈ m'.classes.values.map (fun c => (c.name, c.superclass)) ↔
      (a, up) ∈ m.classes.values.map fun c => (c.name, c.superclass) := by rw [hvalues]
  simpa only [mem_map, Prod.mk.injEq] using hmem

theorem forall_climbs_of_hierarchy_eq (hm : m.Named) (h : m'.hierarchy = m.hierarchy)
    (hclimbs : ∀ a, ∃ names, Climbs m a names) (a : Name) : ∃ names, Climbs m' a names :=
  (hclimbs a).imp fun _ => (sameLinks_of_hierarchy_eq h.symm).climbs hm (hm.of_hierarchy_eq h)

def missingSuper? (classes : Table Name ClassDecl) (c : ClassDecl) : Option String :=
  (stated? c.superclass).bind fun up =>
    if classes.has up then none else some s!"superclass '{up}' of '{c.name}' not found"

theorem warnMissingSupers_eq (m : Module) :
    warnMissingSupers m =
      { m with diagnostics := m.diagnostics ++ m.classes.values.filterMap (missingSuper? m.classes) } := by
  unfold warnMissingSupers
  generalize m.classes.values = classes
  induction classes generalizing m with
  | nil => simp
  | cons c classes ih =>
    rw [foldl_cons, ih, filterMap_cons]
    cases hup : stated? c.superclass with
    | none =>
      have hnone : missingSuper? m.classes c = none := by simp [missingSuper?, hup]
      rw [hnone]
    | some up =>
      dsimp only
      split
      · have hnone : missingSuper? m.classes c = none := by simp [missingSuper?, *]
        rw [hnone]
      · have hsome : missingSuper? m.classes c = some s!"superclass '{up}' of '{c.name}' not found" := by
          simp [missingSuper?, *]
        rw [hsome]
        simp [Module.warn]

theorem classes_warnMissingSupers (m : Module) : (warnMissingSupers m).classes = m.classes := by
  rw [warnMissingSupers_eq]

theorem gives_assignIds (m : Module) :
    Gives (fun m' => m'.hierarchy = m.hierarchy) (assignIds m) := by
  unfold assignIds classOrder Json.sorted
  split
  · simp [Gives, bind, Except.bind, pure, Except.pure, Module.hierarchy]
  · exact .inl rfl

theorem skeleton_computeDepths (m : Module) : (computeDepths m).skeleton = m.skeleton :=
  Module.skeleton_of_values (f := fun c => { c with depth := depthOf m c }) rfl
    fun _ => ⟨rfl, rfl, rfl⟩

end Hierarchy

namespace Properties

theorem numberClasses_map (f : Name × ClassDecl → α)
    (hf : ∀ name cls properties, f (name, { cls with properties }) = f (name, cls))
    (next : Nat) (entries : List (Name × ClassDecl)) :
    (numberClasses next entries).map f = entries.map f := by
  induction entries generalizing next with
  | nil => rfl
  | cons e entries ih => simp [numberClasses, hf, ih]

theorem skeleton_number (m : Module) : (number m).skeleton = m.skeleton :=
  numberClasses_map _ (fun _ _ _ => rfl) _ _

theorem gives_ivarOf (cls : ClassDecl) (p : Property) : Gives (fun _ => True) (ivarOf cls p) := by
  unfold ivarOf
  split
  · trivial
  · refine gives_then (gives_asKey _) fun name => ?_
    split <;> trivial

theorem gives_addMissing (methods : List Method) (method : Method) :
    Gives (fun _ => True) (addMissing methods method) :=
  gives_then (gives_asKey _) fun _ => trivial

theorem gives_setterOf (p : Property) : Gives (fun _ => True) (setterOf p) := by
  unfold setterOf
  split
  · trivial
  · refine gives_then (gives_textOr (.inl rfl) _) fun text => ?_
    split
    · trivial
    · exact .inr (.inr rfl)

def SameClass (c d : ClassDecl) : Prop :=
  d.name = c.name ∧ d.superclass = c.superclass ∧ d.id = c.id

theorem gives_synthesizeProperty (c : ClassDecl) (acc : ClassDecl × List String) (p : Property)
    (h : SameClass c acc.1) : Gives (fun r => SameClass c r.1) (synthesizeProperty acc p) := by
  unfold synthesizeProperty
  refine gives_then (gives_ivarOf _ _) fun ivar => ?_
  refine gives_then (gives_addMissing _ _) fun methods => ?_
  dsimp only
  split
  · exact gives_pure h
  · exact gives_then (gives_setterOf _) fun _ =>
      gives_then (gives_addMissing _ _) fun _ => gives_pure h

theorem gives_synthesizeClass (c : ClassDecl) :
    Gives (fun r => SameClass c r.1) (synthesizeClass c) := by
  unfold synthesizeClass
  refine gives_then (gives_keys _) fun _ => gives_then (gives_keys _) fun _ => ?_
  exact gives_foldlM ⟨rfl, rfl, rfl⟩ fun acc p h => gives_synthesizeProperty c acc p h

theorem gives_synthesize (m : Module) :
    Gives (fun m' => m'.skeleton = m.skeleton) (synthesize m) := by
  unfold synthesize
  refine gives_bind (Q := Forall₂
    (fun e r => r.1.1 = e.1 ∧ SameClass e.2 r.1.2) (number m).classes.entries) ?_ fun done hdone => ?_
  · refine gives_mapM fun e _ => ?_
    exact gives_bind (gives_synthesizeClass e.2) fun r hr => gives_pure ⟨rfl, hr⟩
  · refine gives_pure ?_
    rw [← skeleton_number m]
    unfold Module.skeleton
    generalize (number m).classes.entries = entries at hdone
    induction hdone with
    | nil => rfl
    | cons hsame _ ih =>
      obtain ⟨hkey, hname, hup, hid⟩ := hsame
      simp only [map_cons, hkey, hname, hup, hid]
      exact congrArg _ ih

end Properties

namespace Methods

theorem gives_classify (m : Module) :
    Gives (fun m' => m'.skeleton = m.skeleton) (classify m) := by
  unfold classify
  refine gives_then (gives_forM fun _ _ => gives_keys _) fun _ => ?_
  refine gives_then (gives_forM fun _ _ => gives_keys _) fun _ => ?_
  exact gives_pure (Module.skeleton_of_values
    (f := fun c => { c with methods := c.methods.map (classifyMethod m) }) rfl
    fun _ => ⟨rfl, rfl, rfl⟩)

theorem gives_checkConformance (m : Module) :
    Gives (fun m' => m'.skeleton = m.skeleton) (checkConformance m) := by
  unfold checkConformance
  exact gives_then (gives_forM fun _ _ => gives_keys _) fun _ => gives_pure rfl

def initializer? (c : ClassDecl) : Option Method :=
  c.methods.find? fun x => x.isClassMethod && x.selector == "initialize"

def guardWarnings (c : ClassDecl) : List String :=
  if ((initializer? c).bind (·.body)).any asksForClass then [guardWarning c.name] else []

def initialized (c : ClassDecl) : List Name := if (initializer? c).isSome then [c.name] else []

theorem addInitializer_eq (m : Module) (c : ClassDecl) :
    addInitializer m c =
      { m with
        diagnostics := m.diagnostics ++ guardWarnings c
        initializers := m.initializers ++ initialized c } := by
  unfold addInitializer guardWarnings initialized initializer?
  cases c.methods.find? fun (x : Method) => x.isClassMethod && x.selector == "initialize" with
  | none => simp
  | some x =>
    cases hbody : x.body with
    | none => simp [hbody]
    | some n => cases hasks : asksForClass n <;> simp [hbody, hasks, Module.warn]

theorem foldl_addInitializer (m : Module) (classes : List ClassDecl) :
    classes.foldl addInitializer m =
      { m with
        diagnostics := m.diagnostics ++ classes.flatMap guardWarnings
        initializers := m.initializers ++ classes.flatMap initialized } := by
  induction classes generalizing m with
  | nil => simp
  | cons c classes ih => rw [foldl_cons, ih, addInitializer_eq]; simp

theorem classes_collectInitializers (m : Module) :
    (collectInitializers m).classes = m.classes := by
  rw [collectInitializers, foldl_addInitializer]

end Methods

namespace TypeArguments

open Ast

theorem gives_checkGiven (m : Module) : Gives (fun _ => True) (checkGiven m) := by
  unfold checkGiven
  split
  · refine gives_forM fun e _ => ?_
    refine gives_then (gives_asKey _) fun _ => ?_
    split
    · exact gives_discard (gives_checked _)
    · trivial
  · trivial

theorem gives_breaking? (m : Module) (constraint : String) (e : Node) :
    Gives (fun _ => True) (breaking? m constraint e) := by
  unfold breaking?
  split
  · trivial
  · refine gives_then (gives_qualType _) fun type => ?_
    split
    · trivial
    · refine gives_then (gives_textOr ?_ _) fun _ => trivial
      split
      · exact .inl rfl
      · exact .inr (.inl rfl)

theorem gives_entryError (m : Module) (role container keys values constraint : String) (e : Node) :
    Gives (fun _ => True) (entryError m role container keys values constraint e) := by
  unfold entryError
  refine gives_then (gives_breaking? m constraint e) fun type => ?_
  cases type <;> trivial

theorem gives_entryErrors (m : Module) (container keys values : String) (ns : List Node) :
    Gives (fun _ => True) (entryErrors m container keys values ns) := by
  fun_induction entryErrors m container keys values ns with
  | case1 => trivial
  | case2 key => exact gives_entryError ..
  | case3 key value rest ih =>
    exact gives_then (gives_entryError ..) fun _ => gives_then (gives_entryError ..) fun _ =>
      gives_then ih fun _ => trivial

theorem gives_literalErrors (m : Module) (literal : Node) (args : List String) (type : String) :
    Gives (fun _ => True) (literalErrors m literal args type) := by
  unfold literalErrors arrayErrors dictionaryErrors
  split
  · split
    · trivial
    · exact gives_filterMapM fun e => gives_then (gives_breaking? m _ e) fun _ => trivial
  · split
    · split
      · exact gives_entryErrors ..
      · trivial
    · trivial

theorem gives_checkVarDecl (m : Module) (s : GenericState) (n : Node) :
    Gives (fun _ => True) (checkVarDecl m s n) := by
  unfold checkVarDecl
  refine gives_then (gives_qualType n) fun _ => ?_
  refine gives_then (gives_checked _) fun own => ?_
  split
  · trivial
  · refine gives_then (gives_asKey _) fun name => ?_
    generalize (if own.typeArguments.isEmpty = true then _ else own) = type
    dsimp only
    generalize type.typeArguments = args
    split
    · exact gives_pure trivial
    · refine gives_then (Gives.mono (gives_mapM (P := fun _ _ => True) fun c _ => ?_)
        fun _ _ => trivial) fun _ => gives_pure trivial
      exact gives_literalErrors ..

theorem gives_argumentsOf (s : GenericState) (n : Node) :
    Gives (fun _ => True) (argumentsOf s n) := by
  unfold argumentsOf
  split
  · trivial
  · refine gives_then (gives_qualType n) fun _ => ?_
    refine gives_then (gives_checked _) fun type => ?_
    dsimp only
    generalize type.typeArguments = args
    split
    · trivial
    · exact gives_then (gives_referencedName n) fun _ => gives_then (gives_asKey _) fun _ => trivial

theorem gives_checkAssignment (m : Module) (s : GenericState) (n : Node) :
    Gives (fun _ => True) (checkAssignment m s n) := by
  unfold checkAssignment
  split
  · refine gives_then (gives_argumentsOf s _) fun args => ?_
    split
    · trivial
    · exact gives_then (gives_qualType _) fun _ =>
        gives_then (gives_literalErrors ..) fun _ => trivial
  · trivial

mutual

theorem gives_checkNode (m : Module) (s : GenericState) : (n : Node) →
    Gives (fun _ => True) (checkNode m s n)
  | .mk a ns => by
    rw [checkNode]
    split
    · exact gives_then (gives_checkVarDecl ..) fun s => gives_checkNodes m s ns
    · split
      · exact gives_then (gives_checkAssignment ..) fun s => gives_checkNodes m s ns
      · exact gives_checkNodes m s ns

theorem gives_checkNodes (m : Module) (s : GenericState) : (ns : List Node) →
    Gives (fun _ => True) (checkNodes m s ns)
  | [] => by rw [checkNodes]; trivial
  | n :: ns => by
    rw [checkNodes]
    exact gives_then (gives_checkNode m s n) fun s => gives_checkNodes m s ns

end

theorem gives_validate (m : Module) :
    Gives (fun m' => m'.skeleton = m.skeleton) (validate m) := by
  unfold validate
  refine gives_then (gives_checkGiven m) fun _ => ?_
  refine gives_then (Gives.mono (gives_mapM (P := fun _ _ => True) fun body _ => ?_)
    fun _ _ => trivial) fun _ => ?_
  · cases body with
    | none => trivial
    | some n => exact gives_then (gives_checkNode ..) fun _ => trivial
  · exact gives_pure (Module.skeleton_of_values rfl fun _ => ⟨rfl, rfl, rfl⟩)

end TypeArguments

namespace Module

theorem gives_afterNumbering (m : Module) :
    Gives (fun m' => m'.skeleton = m.skeleton) (do
      let m ← Methods.classify (Hierarchy.computeDepths m)
      let m ← Methods.checkConformance m
      let m ← TypeArguments.validate m
      return Methods.collectInitializers m) := by
  refine gives_bind (Methods.gives_classify _) fun m₁ h₁ => ?_
  refine gives_bind (Methods.gives_checkConformance _) fun m₂ h₂ => ?_
  refine gives_bind (TypeArguments.gives_validate _) fun m₃ h₃ => gives_pure ?_
  have hlast : (Methods.collectInitializers m₃).skeleton = m₃.skeleton :=
    congrArg (fun t : Table Name ClassDecl => t.entries.map _) (Methods.classes_collectInitializers m₃)
  rw [hlast, h₃, h₂, h₁, Hierarchy.skeleton_computeDepths]

theorem gives_afterValidation (m : Module) :
    Gives (fun m' => m'.hierarchy = m.hierarchy ∧
        ∃ m₀ m₁, m₀.hierarchy = m.hierarchy ∧ Hierarchy.assignIds m₀ = .ok m₁ ∧
          m'.skeleton = m₁.skeleton) (do
      let m ← Properties.synthesize m
      let m ← Hierarchy.assignIds (Methods.checkDuplicates m)
      let m ← Methods.classify (Hierarchy.computeDepths m)
      let m ← Methods.checkConformance m
      let m ← TypeArguments.validate m
      return Methods.collectInitializers m) := by
  refine gives_bind (Properties.gives_synthesize m) fun m₀ h₀ => ?_
  have hbefore : (Methods.checkDuplicates m₀).hierarchy = m.hierarchy :=
    hierarchy_eq_of_skeleton_eq h₀
  cases hnumbers : Hierarchy.assignIds (Methods.checkDuplicates m₀) with
  | error f => exact (Hierarchy.gives_assignIds _).of_error hnumbers
  | ok m₁ =>
    have h₁ := (Hierarchy.gives_assignIds _).of_ok hnumbers
    refine (gives_afterNumbering m₁).mono fun m' hm' => ⟨?_, _, m₁, hbefore, hnumbers, hm'⟩
    rw [hierarchy_eq_of_skeleton_eq hm', h₁, hbefore]

end Module

end ObjcLowering
