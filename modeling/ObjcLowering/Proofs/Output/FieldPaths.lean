import ObjcLowering.Proofs.Dispatch.Classification
import ObjcLowering.Proofs.Hierarchy.Settled

/-! Paths of fields. -/

namespace ObjcLowering.Output

open Hierarchy List
open Lowering hiding lockName

variable {m : Module} {chain below above : List ClassDecl}

inductive Field
  | metadata
  | counter
  | lock
  | base (tag : String)
  | ivar (v : Ivar)

def Field.line : Field → String
  | metadata => "\tstruct oz_metadata _meta;"
  | counter => "\toz_atomic_t _refcount;"
  | lock => "\toz_spinlock_t _oz_prop_lock;"
  | base tag => "\tstruct " ++ tag ++ " base;"
  | ivar v => "\t" ++ v.type.declare v.name ++ ";"

def Defines (m : Module) (tag : String) (fields : List Field) : Prop :=
  ∃ c ∈ m.classes.values,
    structLines m c = ["", "struct " ++ tag ++ " \x7b"] ++ fields.map Field.line ++ ["\x7d;"]

def HasField (m : Module) (tag : String) (field : Field) : Prop :=
  ∃ fields, Defines m tag fields ∧ field ∈ fields

inductive Leads (m : Module) : (tag : String) → (steps : Nat) → (last : String) → Prop
  | here : Leads m tag 0 tag
  | into :
      Defines m tag (.base up :: fields) → Leads m up steps last → Leads m tag (steps + 1) last

def firstFields (m : Module) (c : ClassDecl) : List Field :=
  match m.parent? c with
  | none => [.metadata, .counter] ++ if hasAtomicProperty m then [.lock] else []
  | some up => [.base up.name.plain]

def structFields (m : Module) (c : ClassDecl) : List Field :=
  firstFields m c ++ (ownIvars m c).map .ivar

theorem superclass_of_parent? (hm : m.Named) (h : m.parent? c = some d) : c.superclass = some d.name := by
  obtain ⟨up, hup, hclass⟩ := parent?_eq_some.mp h
  rw [hm.name_of_class? hclass]
  exact (Option.filter_eq_some_iff.mp hup).1

theorem baseFields_eq (hm : m.Named) (c : ClassDecl) :
    baseFields m c = (firstFields m c).map Field.line := by
  unfold baseFields firstFields Module.isRoot
  cases hparent : m.parent? c with
  | none =>
    cases hasAtomicProperty m <;> rfl
  | some up =>
    simp [superclass_of_parent? hm hparent, Field.line]

theorem defines_structFields (hm : m.Named) (hc : c ∈ m.classes.values) (hlock : c.name ≠ lockName) :
    Defines m c.name.plain (structFields m c) := by
  refine ⟨c, hc, ?_⟩
  rw [structLines, if_neg hlock, baseFields_eq hm, structFields, map_append, map_map]
  simp [ownFields, Field.line, Function.comp_def, toString, String.append_assoc]

theorem leads_of_ascends (h : Ascends m c chain) (hm : m.Named) (hc : c ∈ m.classes.values)
    (hlock : ∀ e ∈ chain, e.name ≠ lockName) (hsplit : chain = below ++ d :: above) :
    Leads m c.name.plain below.length d.name.plain := by
  induction h generalizing below with
  | top _ =>
    cases below with
    | nil =>
      cases hsplit
      exact .here
    | cons e below => simp at hsplit
  | @up c up rest hsome _ ih =>
    cases below with
    | nil =>
      cases hsplit
      exact .here
    | cons e below =>
      obtain ⟨rfl, hrest⟩ := cons.inj hsplit
      obtain ⟨_, -, hclass⟩ := parent?_eq_some.mp hsome
      have hdefines := defines_structFields hm hc (hlock c (.head _))
      rw [structFields, firstFields, hsome] at hdefines
      exact .into hdefines (ih (Module.mem_values_of_class? hclass)
        (fun e he => hlock e (.tail _ he)) hrest)

def Locks (path : String) : Code → Prop
  | .block _ body => .line 1 ("OZ_SPINLOCK(&" ++ path ++ ") \x7b") ∈ body
  | _ => False

theorem locks_accessorBody (hp : p.isNonatomic.holds = false) (root : String)
    (params : List Param) : Locks (propertyLock m c) (accessorBody m root c p params) := by
  unfold accessorBody
  rw [hp]
  cases params with
  | nil => simp [Locks, getterBody]
  | cons param params =>
    dsimp only [Locks]
    split <;> simp [strongSetterBody, plainSetterBody]

/-- The paths to fields of ancestors lead to these fields: to the reference counter, to the lock that
accessors use, and to variables that the class inherits. -/
structure FieldPathsLead (m : Module) (c : ClassDecl) : Prop where
  root : ∃ (steps : Nat) (tag : String), c.depth = steps ∧
    rootFields m c.name = "obj->" ++ Text.copies steps "base." ∧ Leads m c.name.plain steps tag ∧
      HasField m tag .metadata ∧ HasField m tag .counter
  lock : ∀ x ∈ c.methods, ∀ p, x.synthesized = some p → p.isNonatomic.holds = false →
    ∃ (steps : Nat) (tag : String), c.depth = steps ∧ Leads m c.name.plain steps tag ∧
      HasField m tag .lock ∧ ∀ root params,
        Locks ("self->" ++ Text.copies steps "base." ++ "_oz_prop_lock")
          (accessorBody m root c p params)
  ivar : ∀ name, (∃ d ∈ m.chain c, hasIvar d name) →
    ∃ below d above, m.chain c = below ++ d :: above ∧ hasIvar d name ∧
      (∀ e ∈ below, hasIvar e name = false) ∧ below.length ≤ c.depth ∧
      ivarPath m c name = Text.copies below.length "base." ∧
      Leads m c.name.plain below.length d.name.plain ∧
      ((m.isRoot d ∧ name ∈ builtInIvars) ∨
        ∃ v, v.name = name ∧ HasField m d.name.plain (.ivar v))

theorem exists_top (h : Ascends m c chain) :
    ∃ below root, chain = below ++ [root] ∧ m.parent? root = none := by
  induction h with
  | @top c hnone => exact ⟨[], c, rfl, hnone⟩
  | @up c up rest _ _ ih =>
    obtain ⟨below, root, rfl, hroot⟩ := ih
    exact ⟨c :: below, root, rfl, hroot⟩

theorem exists_first (h : ∃ d ∈ chain, p d) :
    ∃ below d above, chain = below ++ d :: above ∧ p d ∧ (∀ e ∈ below, p e = false) ∧
      chain.findIdx? p = some below.length := by
  induction chain with
  | nil =>
    obtain ⟨d, hd, -⟩ := h
    cases hd
  | cons e chain ih =>
    cases he : p e with
    | true => exact ⟨[], e, chain, rfl, he, fun _ h => absurd h not_mem_nil, by simp [findIdx?_cons, he]⟩
    | false =>
      obtain ⟨d, hd, hpd⟩ := h
      have hrest : ∃ d ∈ chain, p d := by
        cases hd with
        | head =>
          rw [he] at hpd
          cases hpd
        | tail _ hd => exact ⟨d, hd, hpd⟩
      obtain ⟨below, d, above, rfl, hd, hbelow, hindex⟩ := ih hrest
      refine ⟨e :: below, d, above, rfl, hd, ?_, by simp [findIdx?_cons, he, hindex]⟩
      exact forall_mem_cons.mpr ⟨he, hbelow⟩

theorem hasAtomicProperty_of_made (hc : c ∈ m.classes.values)
    (hmade : MadeFor c.properties c.methods) (hx : x ∈ c.methods)
    (hp : x.synthesized = some p) (hatomic : p.isNonatomic.holds = false) :
    hasAtomicProperty m = true := by
  obtain ⟨q, hq, hqp⟩ := hmade x hx p hp
  rw [hasAtomicProperty, any_eq_true]
  refine ⟨c, hc, any_eq_true.mpr ⟨q, hq, ?_⟩⟩
  rw [hqp, hatomic]
  rfl

theorem hasField_ivar (hm : m.Named) (hd : d ∈ m.classes.values) (hlock : d.name ≠ lockName)
    (hivar : hasIvar d name = true) :
    (m.isRoot d ∧ name ∈ builtInIvars) ∨ ∃ v, v.name = name ∧ HasField m d.name.plain (.ivar v) := by
  obtain ⟨v, hv, hname⟩ := any_eq_true.mp hivar
  obtain rfl := eq_of_beq hname
  cases hbuilt : m.isRoot d && builtInIvars.contains v.name with
  | true =>
    left
    simpa using hbuilt
  | false =>
    right
    refine ⟨v, rfl, _, defines_structFields hm hd hlock, ?_⟩
    refine mem_append_right _ (mem_map_of_mem (mem_filter.mpr ⟨hv, ?_⟩))
    rw [hbuilt]
    rfl

theorem fieldPathsLead_of_settled (h : m.Settled) (hc : c ∈ m.classes.values)
    (haway : m.AwayFromLock c) : FieldPathsLead m c := by
  have hascends := h.ascends c hc haway
  have hvalues := m.chain_subset_values hc
  have hdepth : c.depth = (m.chain c).length - 1 := h.depth c hc haway
  obtain ⟨below, root, hchain, hroot⟩ := exists_top hascends
  have hmem : root ∈ m.chain c := by simp [hchain]
  have hleads := leads_of_ascends hascends h.named hc haway hchain
  have hdefines := defines_structFields h.named (hvalues hmem) (haway root hmem)
  rw [structFields, firstFields, hroot] at hdefines
  have hlength : (m.chain c).length - 1 = below.length := by simp [hchain]
  have hsteps : c.depth = below.length := by
    rw [hdepth, hchain]
    simp
  have hpath : basePath m c = Text.copies below.length "base." := by rw [basePath, hlength]
  refine ⟨⟨below.length, root.name.plain, hsteps, ?_, hleads, ?_, ?_⟩, ?_, ?_⟩
  · rw [rootFields, h.named.class?_name hc]
    exact congrArg ("obj->" ++ ·) hpath
  · exact ⟨_, hdefines, by simp⟩
  · exact ⟨_, hdefines, by simp⟩
  · intro x hx p hp hatomic
    have hany := hasAtomicProperty_of_made hc (h.made c hc) hx hp hatomic
    refine ⟨below.length, root.name.plain, hsteps, hleads, ⟨_, hdefines, by simp [hany]⟩, ?_⟩
    intro rootName params
    have hlocks := locks_accessorBody (m := m) (c := c) hatomic rootName params
    rwa [propertyLock, hpath] at hlocks
  · intro name hname
    obtain ⟨before, d, after, hsplit, hivar, hnearest, hindex⟩ := exists_first hname
    have hd : d ∈ m.chain c := by simp [hsplit]
    refine ⟨before, d, after, hsplit, hivar, hnearest, ?_, ?_, ?_, ?_⟩
    · rw [hdepth, hsplit, length_append, length_cons]
      omega
    · rw [ivarPath, hindex]
    · exact leads_of_ascends hascends h.named hc haway hsplit
    · exact hasField_ivar h.named (hvalues hd) (haway d hd) hivar

/-- In a completed module, and again in what is written out for it, all paths lead to the fields that
they are meant to. -/
theorem field_paths_lead {m m' : Module} (hm : m.Named)
    (hmade : ∀ c ∈ m.classes.values, MadeFor c.properties c.methods) (h : m.complete = .ok m') :
    (∀ c ∈ m'.classes.values, m'.AwayFromLock c → FieldPathsLead m' c) ∧
    ∀ options sizes p, Program.prepare options sizes m' = .ok p →
      ∀ c ∈ p.module.classes.values, p.module.AwayFromLock c → FieldPathsLead p.module c := by
  have hsettled := Module.settled_of_complete hm hmade h
  refine ⟨fun c hc haway => fieldPathsLead_of_settled hsettled hc haway, ?_⟩
  intro options sizes p hp c hc haway
  exact fieldPathsLead_of_settled (hsettled.prepare hp) hc haway

/-! A class two steps below the root, with a property that takes the lock. -/

def layered : Module :=
  { classes := ⟨[("OZObject", { name := "OZObject" }),
      ("Base", { name := "Base", superclass := some "OZObject"
                 ivars := [{ name := "_level", type := ⟨"int"⟩ }] }),
      ("Leaf", { name := "Leaf", superclass := some "Base"
                 properties := [{ name := "item", type := ⟨"int"⟩ }] })]⟩ }

def layeredDone : Module := layered.completeClasses.toOption.getD {}

def leafDone : ClassDecl := (layeredDone.class? "Leaf").getD default

theorem named_layered : layered.Named := by
  refine ⟨by decide, ?_, ?_, ?_⟩
  all_goals simp [layered, Json.isText]

theorem leaf_paths_lead :
    ∃ m', layered.complete = .ok m' ∧ ∃ c ∈ m'.classes.values, m'.AwayFromLock c ∧ c.depth = 2 ∧
      c.methods.any (fun x => x.synthesized.isSome) ∧ FieldPathsLead m' c := by
  have hclasses := Methods.classes_collectInitializers layeredDone
  have hdone : layered.complete = .ok (Methods.collectInitializers layeredDone) :=
    complete_of_completeClasses rfl
  have hmade : ∀ c ∈ layered.classes.values, MadeFor c.properties c.methods := by
    simp [layered, Table.values, MadeFor]
  have hmem : leafDone ∈ (Methods.collectInitializers layeredDone).classes.values := by
    rw [hclasses]
    exact getD_mem_values (by decide +kernel)
  have haway : (Methods.collectInitializers layeredDone).AwayFromLock leafDone := by
    rw [Module.AwayFromLock, chain_eq_of_classes_eq hclasses]
    decide +kernel
  refine ⟨_, hdone, leafDone, hmem, haway, by decide +kernel, by decide +kernel, ?_⟩
  exact (field_paths_lead named_layered hmade hdone).1 leafDone hmem haway

end ObjcLowering.Output
