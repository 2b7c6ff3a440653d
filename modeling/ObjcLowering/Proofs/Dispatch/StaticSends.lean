import ObjcLowering.Proofs.Hierarchy.Lookups

/-!
Messages to receivers whose class is known are calls of functions, named after the class that is found to
answer.
-/

namespace ObjcLowering

open Ast Hierarchy Lowering Output List

variable {n : Node} {c d : ClassDecl}

inductive Receiver
  | cls
  | superClass
  | superInstance
  | object

def Receiver.isClass : Receiver → Bool
  | cls => true
  | superClass => true
  | superInstance => false
  | object => false

/-- The message has such a receiver, and the search for its method starts at the class `d`. Inline
accessors and the refused message to initialise a class are left out. -/
inductive StartsAt (env : Env) (n : Node) : Receiver → ClassDecl → Prop
  | cls {type : TypeRef} {name : Name} {d : ClassDecl} : n.receiverKind = "class" →
      n.attrs.classType.get = .ok type → type.qual = some name → env.module.class? name = some d →
      n.selector ≠ "initialize" → StartsAt env n .cls d
  | superClass {d : ClassDecl} : n.receiverKind = "super (class)" →
      env.module.parent? env.cls = some d → StartsAt env n .superClass d
  | superInstance {d : ClassDecl} : n.receiverKind = "super (instance)" →
      env.module.parent? env.cls = some d → StartsAt env n .superInstance d
  | typed {r : Node} {type : SourceType} {d : ClassDecl} : n.receiverKind = "instance" →
      receiver? n = some r → typeOf r = .ok type → namedClass? type = some d.name →
      d ∈ env.module.classes.values → inlineAccessor? d.name n.selector = none →
      StartsAt env n .object d
  | sent {r : Node} {type : SourceType} {d : ClassDecl} : n.receiverKind = "instance" →
      receiver? n = some r → typeOf r = .ok type → namedClass? type = none →
      classOfSend? env.module r = .ok (some d.name) → d ∈ env.module.classes.values →
      inlineAccessor? d.name n.selector = none → StartsAt env n .object d

theorem StartsAt.not_isRefused (h : StartsAt env n receiver d) : ¬ IsRefused n := by
  rintro ⟨hkind, hselector⟩
  cases h with
  | cls _ _ _ _ hnot => exact hnot hselector
  | superClass h _ => exact absurd (h.symm.trans hkind) (by decide)
  | superInstance h _ => exact absurd (h.symm.trans hkind) (by decide)
  | typed h => exact absurd (h.symm.trans hkind) (by decide)
  | sent h => exact absurd (h.symm.trans hkind) (by decide)

theorem StartsAt.mem_values (h : StartsAt env n receiver d) : d ∈ env.module.classes.values := by
  cases h with
  | cls _ _ _ hclass _ => exact Module.mem_values_of_class? hclass
  | superClass _ hparent =>
    obtain ⟨up, -, hclass⟩ := parent?_eq_some.mp hparent
    exact Module.mem_values_of_class? hclass
  | superInstance _ hparent =>
    obtain ⟨up, -, hclass⟩ := parent?_eq_some.mp hparent
    exact Module.mem_values_of_class? hclass
  | typed _ _ _ _ hd _ => exact hd
  | sent _ _ _ _ _ hd _ => exact hd

theorem callee_of_known (hkind : n.receiverKind = "instance") (hr : receiver? n = some r)
    (hknown : concreteClass? env.module r = .ok (some d.name))
    (hassumed : receiverClass env.module env.cls r = .ok d.name)
    (hinline : inlineAccessor? d.name n.selector = none) :
    callee env n = .ok (functionOf (definingClass env.module d.name n.selector) n) := by
  have hreceiver : knownReceiver env.module (receiver? n) = .ok (some (r, d.name)) := by
    rw [hr, knownReceiver, hknown]
    rfl
  have hclass : assumedClass env n = .ok d.name := by
    rw [assumedClass, hr]
    exact hassumed
  rw [callee_of_instance hkind, instanceCallee, hreceiver]
  cases hdispatch : dispatchOf env.module n.selector with
  | table => simp [bind, Except.bind, hinline, pure, Except.pure]
  | direct => simp [bind, Except.bind, hinline, hclass, pure, Except.pure]

theorem callee_object (h : StartsAt env n .object d) (hm : env.module.Named) :
    callee env n = .ok (functionOf (definingClass env.module d.name n.selector) n) := by
  have hhas : d ∈ env.module.classes.values → env.module.classes.has d.name = true := fun hd =>
    Option.isSome_iff_exists.mpr ⟨d, hm.class?_name hd⟩
  cases h with
  | typed hkind hr htype hnamed hd hinline =>
    apply callee_of_known hkind hr _ _ hinline
    · rw [concreteClass?, htype]
      simp [bind, Except.bind, hnamed, Option.filter, hhas hd, pure, Except.pure]
    · rw [receiverClass, htype]
      simp [bind, Except.bind, hnamed, pure, Except.pure]
  | sent hkind hr htype hnamed hsend hd hinline =>
    apply callee_of_known hkind hr _ _ hinline
    · rw [concreteClass?, htype]
      simp [bind, Except.bind, hnamed, hsend]
    · rw [receiverClass, htype]
      simp [bind, Except.bind, hnamed, hsend, pure, Except.pure]

theorem callee_super (hkind : n.receiverKind = .text kind)
    (hsuper : Text.begins "super" kind = true) (hparent : env.module.parent? env.cls = some d)
    (hm : env.module.Named) : callee env n = .ok (functionOf d.name n) := by
  obtain ⟨up, hup, hclass⟩ := parent?_eq_some.mp hparent
  rw [callee, hkind, hm.name_of_class? hclass]
  simp [Json.textOr, bind, Except.bind, hsuper, hup, pure, Except.pure]

theorem hasClassMethod_eq (h : m.class? name = some d) (s : Name) :
    hasClassMethod m name s = (ownMethod? d s true).isSome := by
  rw [hasClassMethod, h, Bool.eq_iff_iff]
  simp [ownMethod?, find?_isSome]

theorem callee_class (hkind : n.receiverKind = "class")
    (htype : n.attrs.classType.get = .ok type) (hname : type.qual = some name)
    (hclass : env.module.class? name = some d) (hm : env.module.Named) :
    callee env n = .ok (d.name.plain ++ "_"
      ++ (if (ownMethod? d n.selector true).isSome then "cls_" else "")
      ++ cSelector n.selector.plain) := by
  have htext := hm.isText_name (Module.mem_values_of_class? hclass)
  obtain rfl := hm.name_of_class? hclass
  have hkey : d.name.asKey = .ok d.name := by
    cases hn : d.name with
    | text t => rfl
    | _ => rw [hn] at htext; cases htext
  have hcallee : callee env n = classCallee env n := by
    rw [callee, hkind]
    rfl
  rw [hcallee, classCallee, htype]
  simp [bind, Except.bind, hname, hkey, hasClassMethod_eq hclass, pure, Except.pure]

theorem methodName_eq (h : ownMethod? c n.selector isClass = some x) :
    methodName c x = c.name.plain ++ "_" ++ (if isClass then "cls_" else "")
      ++ cSelector n.selector.plain := by
  obtain ⟨-, hselector, hkind⟩ := ownMethod?_eq_some h
  rw [methodName, hselector, hkind]
  rfl

theorem functionOf_eq_instance_iff (a b : Name) :
    functionOf a n = b.plain ++ "_" ++ "" ++ cSelector n.selector.plain ↔ a.plain = b.plain := by
  rw [functionOf, String.append_empty, String.append_left_inj, String.append_left_inj]

theorem functionOf_eq_class_iff (a b : Name) :
    functionOf a n = b.plain ++ "_" ++ "cls_" ++ cSelector n.selector.plain ↔
      a.plain = b.plain ++ "_cls" := by
  have hsplit : b.plain ++ "_" ++ "cls_" = b.plain ++ "_cls" ++ "_" := by
    simp [String.append_assoc]
  rw [functionOf, String.append_left_inj, hsplit, String.append_left_inj]

def Receiver.Reaches (m : Module) (s : Name) (d c : ClassDecl) : Receiver → Prop
  | cls => c.name = d.name ∨ d.name.plain = c.name.plain ++ "_cls"
  | superClass => d.name.plain = c.name.plain ++ "_cls"
  | superInstance => c.name = d.name
  | object => InstancesFirst m d s

theorem nearest?_of_own (h : (ownMethod? d s isClass).isSome = true) : nearest? m d s isClass = some d := by
  rw [nearest?, Module.chain, Module.chainFrom]
  cases m.parent? d with
  | none => exact find?_cons_of_pos (p := fun d => (ownMethod? d s isClass).isSome) h
  | some up => exact find?_cons_of_pos (p := fun d => (ownMethod? d s isClass).isSome) h

theorem ownClassFunction_iff (hm : m.Resolved) (hd : d ∈ m.classes.values)
    (hnearest : nearest? m d n.selector true = some c) :
    d.name.plain ++ "_" ++ (if (ownMethod? d n.selector true).isSome then "cls_" else "")
        ++ cSelector n.selector.plain
      = c.name.plain ++ "_" ++ "cls_" ++ cSelector n.selector.plain ↔
      c.name = d.name ∨ d.name.plain = c.name.plain ++ "_cls" := by
  cases hown : (ownMethod? d n.selector true).isSome with
  | true =>
    rw [nearest?_of_own hown] at hnearest
    cases hnearest
    exact iff_of_true rfl (.inl rfl)
  | false =>
    -- the method is inherited, and the name without `cls_` can only be right by its spelling
    have hne : c.name ≠ d.name := by
      intro hname
      have hc := (hm.ascends hd).subset_values hd (mem_of_find?_eq_some hnearest)
      have hhas := find?_some hnearest
      rw [hm.named.eq_of_name_eq hc hd hname, hown] at hhas
      cases hhas
    rw [or_iff_right hne, ← functionOf_eq_class_iff (n := n), functionOf]
    simp

/-- A message to a receiver of known class is a call of one function. That is the function of the
nearest class with a method of the right kind exactly if: for a class, it has the method itself; for
`super` in an instance method, the superclass has it itself; for `super` in a class method, never;
for an object, no class method comes before. The exceptions are classes named after the prefix of the
functions of another one. -/
theorem known_receivers_reach_nearest (env : Env) (n : Node) (receiver : Receiver)
    (d c : ClassDecl) (x : Method) (hm : env.module.Resolved) (hstart : StartsAt env n receiver d)
    (hnearest : nearest? env.module d n.selector receiver.isClass = some c)
    (hown : ownMethod? c n.selector receiver.isClass = some x) :
    ∃ f, callee env n = .ok f ∧ Writes env n f ∧
      (f = methodName c x ↔ receiver.Reaches env.module n.selector d c) ∧
      ∃ result params, methodSignature c x = result ++ " " ++ methodName c x ++ "(" ++ params ++ ")" := by
  have hd := hstart.mem_values
  have hc := (hm.ascends hd).subset_values hd (mem_of_find?_eq_some hnearest)
  have hnames : d.name.plain = c.name.plain ↔ d.name = c.name :=
    plain_inj (hm.named.isText_name hd) (hm.named.isText_name hc)
  have hmain : ∃ f, callee env n = .ok f ∧
      (f = methodName c x ↔ receiver.Reaches env.module n.selector d c) := by
    rw [methodName_eq hown]
    cases receiver with
    | cls =>
      cases hstart with
      | cls hkind htype hname hclass _ =>
        exact ⟨_, callee_class hkind htype hname hclass hm.named,
          ownClassFunction_iff hm hd hnearest⟩
    | superClass =>
      cases hstart with
      | superClass hkind hparent =>
        exact ⟨_, callee_super hkind rfl hparent hm.named, functionOf_eq_class_iff _ _⟩
    | superInstance =>
      cases hstart with
      | superInstance hkind hparent =>
        refine ⟨_, callee_super hkind rfl hparent hm.named, ?_⟩
        exact (functionOf_eq_instance_iff _ _).trans (hnames.trans eq_comm)
    | object =>
      refine ⟨_, callee_object hstart hm.named, ?_⟩
      exact (functionOf_eq_instance_iff _ _).trans (definingClass_plain_iff hm hd hnearest)
  obtain ⟨f, hf, hiff⟩ := hmain
  exact ⟨f, hf, writes_of_callee hf hstart.not_isRefused, hiff, _, _, rfl⟩

/-! A family of classes in which some methods of classes and of instances share a selector. -/

def Module.ofMethods (classes : List (String × Option String × List Method)) : Module :=
  { classes := ⟨classes.map fun (name, up, methods) =>
      (.text name, { name := .text name, superclass := up.map .text, methods })⟩ }

theorem Module.named_ofMethods (classes : List (String × Option String × List Method))
    (h : (classes.map (·.1)).Nodup) : (Module.ofMethods classes).Named := by
  have hlinks : (Module.ofLinks (classes.map fun c => (c.1, c.2.1))).Named :=
    Module.named_ofLinks _ (by rwa [map_map])
  apply hlinks.of_hierarchy_eq
  simp [Module.hierarchy, Module.ofMethods, Module.ofLinks]

def bareMethod (selector : String) (isClassMethod : Bool) (dispatch : Dispatch) : Method :=
  { selector := .text selector, returnType := ⟨"void"⟩, isClassMethod, dispatch }

def family (run : Dispatch) : Module :=
  .ofMethods [("OZObject", none, []), ("Aux", some "OZObject", [bareMethod "run" true .direct]),
    ("Base", some "OZObject", [bareMethod "make" true .direct, bareMethod "run" false run,
      bareMethod "count" false .direct, bareMethod "size" false .direct]),
    ("Mid", some "Base", [bareMethod "run" true .direct, bareMethod "count" true .direct]),
    ("Child", some "Mid", []), ("Other", some "OZObject", [bareMethod "run" false run])]

theorem named_family (run : Dispatch) : (family run).Named :=
  Module.named_ofMethods _ (by simp)

theorem resolved_family (run : Dispatch) : (family run).Resolved := by
  apply Module.resolved_of_isOk (named_family run)
  cases run <;> decide +kernel

def familyClass (name : String) : ClassDecl := ((family .table).class? name).getD default

def inChild : Env := { cls := familyClass "Child", module := family .table, root := "OZObject" }

def message (kind cls selector : String) (inner : List Node) : Node :=
  .mk { kind := "ObjCMessageExpr", selector := some (.text selector), receiverKind := some (.text kind),
        classType := .present { qual := some (.text cls) } } inner

theorem startsAt_child (selector : String) :
    StartsAt inChild (message "instance" "" selector [.varRef "c" "Child *"]) .object
      (familyClass "Child") :=
  .typed rfl rfl rfl rfl (Module.mem_values_of_class? (a := "Child") rfl) rfl

theorem size_reaches_base :
    StartsAt inChild (message "instance" "" "size" [.varRef "c" "Child *"]) .object
      (familyClass "Child") ∧
    Writes inChild (message "instance" "" "size" [.varRef "c" "Child *"]) "Base_size" := by
  have hstart := startsAt_child "size"
  refine ⟨hstart, ?_⟩
  obtain ⟨f, -, hwrites, hiff, -⟩ := known_receivers_reach_nearest inChild _ .object
    (familyClass "Child") (familyClass "Base") _ (resolved_family .table) hstart rfl rfl
  have hname : f = "Base_size" := hiff.mpr (firstWith?_eq_nearest?_iff.mp rfl)
  rwa [hname] at hwrites

/-- Each of these messages has a method of its kind in `Base`, but is written with another function:
a class method that the class inherits, a method that the superclass inherits, and a method behind a
class method. -/
theorem inherited_methods_missed :
    (StartsAt inChild (message "class" "Child" "make" []) .cls (familyClass "Child") ∧
      nearest? (family .table) (familyClass "Child") "make" true = some (familyClass "Base") ∧
      Writes inChild (message "class" "Child" "make" []) "Child_make") ∧
    (StartsAt inChild (message "super (instance)" "" "size" []) .superInstance (familyClass "Mid") ∧
      nearest? (family .table) (familyClass "Mid") "size" false = some (familyClass "Base") ∧
      Writes inChild (message "super (instance)" "" "size" []) "Mid_size") ∧
    (StartsAt inChild (message "super (class)" "" "count" []) .superClass (familyClass "Mid") ∧
      nearest? (family .table) (familyClass "Mid") "count" true = some (familyClass "Mid") ∧
      Writes inChild (message "super (class)" "" "count" []) "Mid_count") ∧
    StartsAt inChild (message "instance" "" "count" [.varRef "c" "Child *"]) .object
        (familyClass "Child") ∧
      nearest? (family .table) (familyClass "Child") "count" false = some (familyClass "Base") ∧
      Writes inChild (message "instance" "" "count" [.varRef "c" "Child *"]) "Mid_count" := by
  have hclass : StartsAt inChild (message "class" "Child" "make" []) .cls (familyClass "Child") :=
    .cls rfl rfl rfl rfl (by decide)
  have hinstance : StartsAt inChild (message "super (instance)" "" "size" []) .superInstance
      (familyClass "Mid") := .superInstance rfl rfl
  have hsuper : StartsAt inChild (message "super (class)" "" "count" []) .superClass
      (familyClass "Mid") := .superClass rfl rfl
  have hobject := startsAt_child "count"
  refine ⟨⟨hclass, rfl, ?_⟩, ⟨hinstance, rfl, ?_⟩, ⟨hsuper, rfl, ?_⟩, hobject, rfl, ?_⟩
  · exact writes_of_callee rfl hclass.not_isRefused
  · exact writes_of_callee rfl hinstance.not_isRefused
  · exact writes_of_callee rfl hsuper.not_isRefused
  · exact writes_of_callee rfl hobject.not_isRefused

theorem mem_tableEntries (hm : m.Named) (hc : c ∈ m.classes.values) :
    (c.name.plain, impl) ∈ tableEntries m s ↔
      ∃ d, implementingClass? m c s = some d ∧ d.name.plain = impl := by
  have hbyId : ∀ {d}, d ∈ byId m ↔ d ∈ m.classes.values := mem_mergeSort
  simp only [tableEntries, mem_filterMap, Option.map_eq_some_iff, Prod.mk.injEq]
  constructor
  · rintro ⟨c', hc', d, hd, hname, rfl⟩
    obtain rfl := (hm.plain_name_inj (hbyId.mp hc') hc).mp hname
    exact ⟨d, hd, rfl⟩
  · rintro ⟨d, hd, rfl⟩
    exact ⟨c, hbyId.mpr hc, d, hd, rfl, rfl⟩

theorem mem_flatMap_selectors {methods : List (String × Method)} {f : String → List String}
    (hs : (s, x) ∈ methods) (h : line ∈ f s) : line ∈ methods.flatMap fun (s, _) => f s :=
  mem_flatMap.mpr ⟨(s, x), hs, h⟩

theorem directMacro_mem_dispatchHeader {methods : List (String × Method)} {s root text : String}
    (hmethods : tableMethods m = .ok methods) (hs : (s, x) ∈ methods) (hentry : entry ∈ tableEntries m s)
    (h : dispatchHeader m root pool = .ok text) :
    ∃ before after, text = before ++ (directMacro s entry ++ "\n") ++ after := by
  rw [dispatchHeader, hmethods] at h
  have htext := pure_eq_ok.mp h
  rw [← htext]
  apply exists_append_of_mem_unlines
  have hheader : directMacro s entry ∈ tableHeader m methods := by
    have hmem := mem_flatMap_selectors (f := fun s => (tableEntries m s).map (directMacro s)) hs
      (mem_map_of_mem hentry)
    cases methods with
    | nil => cases hs
    | cons p methods =>
      simp only [tableHeader, isEmpty_cons, Bool.false_eq_true, if_false, mem_append]
      simp only [hmem, true_or, or_true]
  simp only [mem_append, hheader, true_or, or_true]

def tableRow (s : String) (entry : String × String) : String :=
  "\t[OZ_CLASS_" ++ entry.1 ++ "] = (" ++ functionType s ++ ")" ++ entry.2 ++ "_" ++ cSelector s ++ ","

theorem tableRow_mem_dispatchSource {methods : List (String × Method)} {s root text : String}
    (hmethods : tableMethods m = .ok methods) (hs : (s, x) ∈ methods) (hentry : entry ∈ tableEntries m s)
    (h : dispatchSource m root pool hasHeap = .ok text) :
    ∃ before after, text = before ++ (tableRow s entry ++ "\n") ++ after := by
  rw [dispatchSource, hmethods] at h
  have htext := pure_eq_ok.mp h
  rw [← htext]
  apply exists_append_of_mem_unlines
  have htable : tableRow s entry ∈ tableSource m s := by
    have hrow : tableRow s entry ∈ (tableEntries m s).map (tableRow s) := mem_map_of_mem hentry
    exact mem_append_left _ (mem_append_right _ hrow)
  have hmem := mem_flatMap_selectors hs htable
  simp only [mem_append, hmem, true_or, or_true]

/-- For a class with an entry in the table of a selector, messages to objects of the class call the
function that stands in the table and behind the macro for a direct call. -/
theorem direct_sends_follow_tables (m : Module) (methods : List (String × Method)) (s : String)
    (x : Method) (c : ClassDecl) (impl : String) (hm : m.Resolved)
    (hmethods : tableMethods m = .ok methods) (hs : (s, x) ∈ methods) (hdealloc : s ≠ "dealloc")
    (hc : c ∈ m.classes.values) (hentry : (c.name.plain, impl) ∈ tableEntries m s) :
    (∀ env n, env.module = m → n.selector = .text s → StartsAt env n .object c →
      callee env n = .ok (impl ++ "_" ++ cSelector s) ∧ Writes env n (impl ++ "_" ++ cSelector s)) ∧
    (∀ impl', (c.name.plain, impl') ∈ tableEntries m s → impl' = impl) ∧
    (∀ root pool text, dispatchHeader m root pool = .ok text → ∃ before after,
      text = before ++ (directMacro s (c.name.plain, impl) ++ "\n") ++ after) ∧
    ∀ root pool hasHeap text, dispatchSource m root pool hasHeap = .ok text → ∃ before after,
      text = before ++ (tableRow s (c.name.plain, impl) ++ "\n") ++ after := by
  obtain ⟨d, hd, himpl⟩ := (mem_tableEntries hm.named hc).mp hentry
  refine ⟨?_, ?_, fun root pool text htext => directMacro_mem_dispatchHeader hmethods hs hentry htext,
    fun root pool hasHeap text htext => tableRow_mem_dispatchSource hmethods hs hentry htext⟩
  · rintro env n rfl hselector hstart
    have hfirst : firstWith? env.module c n.selector = some d := by
      rw [hselector, ← hd]
      exact (implementingClass?_eq fun h => hdealloc (Json.text.inj h)).symm
    have hcallee : callee env n = .ok (impl ++ "_" ++ cSelector s) := by
      rw [callee_object hstart hm.named, definingClass_eq hm hc hfirst,
        functionOf_of_selector _ hselector, himpl]
    exact ⟨hcallee, writes_of_callee hcallee hstart.not_isRefused⟩
  · intro impl' hentry'
    obtain ⟨d', hd', himpl'⟩ := (mem_tableEntries hm.named hc).mp hentry'
    rw [hd] at hd'
    cases hd'
    exact himpl'.symm.trans himpl

theorem tableMethods_family :
    tableMethods (family .table) = .ok [("run", bareMethod "run" false .table)] := by
  have hfirst : (firstTableMethods (family .table)).entries
      = [(.text "run", bareMethod "run" false .table)] := rfl
  rw [tableMethods, hfirst]
  simp only [Json.sortBy, mergeSort_singleton]
  rfl

theorem run_follows_table :
    ("Child", "Mid") ∈ tableEntries (family .table) "run" ∧
    Writes inChild (message "instance" "" "run" [.varRef "c" "Child *"]) "Mid_run" := by
  have hm := resolved_family .table
  have hchild : familyClass "Child" ∈ (family .table).classes.values :=
    Module.mem_values_of_class? (a := "Child") rfl
  have hentry : ("Child", "Mid") ∈ tableEntries (family .table) "run" :=
    (mem_tableEntries hm.named hchild).mpr ⟨familyClass "Mid", rfl, rfl⟩
  obtain ⟨hsends, -⟩ := direct_sends_follow_tables (family .table) _ "run" _ (familyClass "Child") "Mid"
    hm tableMethods_family (.head _) (by decide) hchild hentry
  exact ⟨hentry, (hsends inChild _ rfl rfl (startsAt_child "run")).2⟩

end ObjcLowering
