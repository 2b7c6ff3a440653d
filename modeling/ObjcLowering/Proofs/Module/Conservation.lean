import Mathlib.Algebra.Order.Group.Multiset
import Mathlib.Logic.Relation
import ObjcLowering.Proofs.Module.Merging
import ObjcLowering.Proofs.Module.Reading

/-!
Where the items of a program are: outside of classes, in classes or in files without a class.
-/

namespace ObjcLowering

open List Table

def SameMembers {α : Type} (xs ys : List α) : Prop := ∀ x, x ∈ xs ↔ x ∈ ys

theorem sameMembers_addAllNew [BEq α] [LawfulBEq α] (xs ys : List α) :
    SameMembers (addAllNew xs ys) (xs ++ ys) := by
  intro x
  rw [addAllNew]
  induction ys generalizing xs with
  | nil => simp
  | cons y ys ih =>
    have hstep : x ∈ addNew xs y ↔ x ∈ xs ∨ x = y := by
      unfold addNew
      split
      · next hmem =>
        rw [contains_iff_mem] at hmem
        exact ⟨.inl, fun h => h.elim id fun h => h ▸ hmem⟩
      · rw [mem_append, mem_singleton]
    rw [foldl_cons, ih, mem_append, hstep, mem_append, mem_cons, or_assoc]

/-- When two lists count as holding the same items: their order does not matter, and it can be told
part by part. -/
structure Sameness (α : Type) where
  Same : List α → List α → Prop
  perm : ∀ {xs ys}, xs.Perm ys → Same xs ys
  trans : ∀ {xs ys zs}, Same xs ys → Same ys zs → Same xs zs
  append : ∀ {xs xs' ys ys'}, Same xs xs' → Same ys ys' → Same (xs ++ ys) (xs' ++ ys')

namespace Sameness

def asBags (α : Type) : Sameness α where
  Same := Perm
  perm h := h
  trans := Perm.trans
  append := Perm.append

def asSets (α : Type) : Sameness α where
  Same := SameMembers
  perm h _ := h.mem_iff
  trans h h' x := (h x).trans (h' x)
  append h h' x := by rw [mem_append, mem_append, h x, h' x]

variable (S : Sameness α)

theorem refl (xs : List α) : S.Same xs xs := S.perm (.refl xs)

end Sameness

def ClassDecl.withLoose (m : Module) (c : ClassDecl) : ClassDecl :=
  { c with
    functions := c.functions ++ m.functions
    statics := c.statics ++ m.statics
    verbatim := addAllNew c.verbatim m.verbatim
    includes := addAllNew c.includes m.includes }

def Module.looseFile (m : Module) : Orphan :=
  { stem := m.stem, functions := m.functions, statics := m.statics, verbatim := m.verbatim,
    includes := m.includes, source := m.sources.find? m.stem }

/-- A kind of items: where they stand, and that what is put together holds the items of its parts. -/
structure ItemKind (α : Type) extends Sameness α where
  loose : Module → List α
  ofClass : ClassDecl → List α
  ofFile : Orphan → List α
  loose_empty : loose {} = []
  loose_clear : ∀ m : Module, loose m.clearLoose = []
  loose_add : ∀ m n : Module, Same (loose (m.add n)) (loose m ++ loose n)
  ofClass_raise : ∀ k c, ofClass (ClassDecl.raiseSerials k c) = ofClass c
  ofClass_merge : ∀ c d, Same (ofClass (mergeClass c d)) (ofClass c ++ ofClass d)
  ofClass_loose : ∀ m c, Same (ofClass (ClassDecl.withLoose m c)) (ofClass c ++ loose m)
  ofFile_loose : ∀ m : Module, ofFile m.looseFile = loose m

namespace ItemKind

def functions : ItemKind Function where
  toSameness := .asBags Function
  loose m := m.functions
  ofClass c := c.functions
  ofFile o := o.functions
  loose_empty := rfl
  loose_clear _ := rfl
  loose_add _ _ := .refl _
  ofClass_raise _ _ := rfl
  ofClass_merge _ _ := .refl _
  ofClass_loose _ _ := .refl _
  ofFile_loose _ := rfl

def statics : ItemKind StaticVar where
  toSameness := .asBags StaticVar
  loose m := m.statics
  ofClass c := c.statics
  ofFile o := o.statics
  loose_empty := rfl
  loose_clear _ := rfl
  loose_add _ _ := .refl _
  ofClass_raise _ _ := rfl
  ofClass_merge _ _ := .refl _
  ofClass_loose _ _ := .refl _
  ofFile_loose _ := rfl

def verbatim : ItemKind String where
  toSameness := .asSets String
  loose m := m.verbatim
  ofClass c := c.verbatim
  ofFile o := o.verbatim
  loose_empty := rfl
  loose_clear _ := rfl
  loose_add _ _ := sameMembers_addAllNew _ _
  ofClass_raise _ _ := rfl
  ofClass_merge _ _ := sameMembers_addAllNew _ _
  ofClass_loose _ _ := sameMembers_addAllNew _ _
  ofFile_loose _ := rfl

def includes : ItemKind String where
  toSameness := .asSets String
  loose m := m.includes
  ofClass c := c.includes
  ofFile o := o.includes
  loose_empty := rfl
  loose_clear _ := rfl
  loose_add _ _ := sameMembers_addAllNew _ _
  ofClass_raise _ _ := rfl
  ofClass_merge _ _ := sameMembers_addAllNew _ _
  ofClass_loose _ _ := sameMembers_addAllNew _ _
  ofFile_loose _ := rfl

variable (K : ItemKind α) {m n : Module}

def inClasses (classes : Table Name ClassDecl) : List α := classes.values.flatMap K.ofClass

def all (m : Module) : List α :=
  K.loose m ++ K.inClasses m.classes ++ m.orphans.flatMap K.ofFile

@[simp] theorem inClasses_nil : K.inClasses ⟨[]⟩ = [] := rfl

@[simp] theorem inClasses_cons (c : ClassDecl) (entries : List (Name × ClassDecl)) :
    K.inClasses ⟨(name, c) :: entries⟩ = K.ofClass c ++ K.inClasses ⟨entries⟩ := rfl

theorem inClasses_raise (k : Nat) (classes : Table Name ClassDecl) :
    K.inClasses (classes.mapValues (ClassDecl.raiseSerials k)) = K.inClasses classes := by
  simp [inClasses, values, mapValues, flatMap_map, Function.comp_def, K.ofClass_raise]

theorem inClasses_set_joined (c : ClassDecl) (classes : Table Name ClassDecl) :
    K.Same (K.inClasses (classes.set name (joined (classes.find? name) c)))
      (K.inClasses classes ++ K.ofClass c) := by
  obtain ⟨entries⟩ := classes
  induction entries with
  | nil => exact K.perm (by simp [Table.set, Table.setIn, Table.find?, joined])
  | cons e entries ih =>
    obtain ⟨n, d⟩ := e
    by_cases hname : n = name
    · subst hname
      have hjoined : K.Same (K.ofClass (mergeClass d c) ++ K.inClasses ⟨entries⟩)
          (K.ofClass d ++ K.ofClass c ++ K.inClasses ⟨entries⟩) :=
        K.append (K.ofClass_merge d c) (K.refl _)
      have hset : K.inClasses (set ⟨(n, d) :: entries⟩ n
          (joined (Table.find? ⟨(n, d) :: entries⟩ n) c)) =
          K.ofClass (mergeClass d c) ++ K.inClasses ⟨entries⟩ := by
        simp [Table.set, Table.setIn, Table.find?, joined]
      rw [hset, inClasses_cons, append_assoc]
      refine K.trans hjoined (K.perm ?_)
      rw [append_assoc]
      exact Perm.append_left _ perm_append_comm
    · have hset : set ⟨(n, d) :: entries⟩ name
          (joined (find? ⟨(n, d) :: entries⟩ name) c) =
          ⟨(n, d) :: (set ⟨entries⟩ name (joined (find? ⟨entries⟩ name) c)).entries⟩ := by
        simp [Table.set, Table.setIn, Table.find?, hname, lookup_cons,
          beq_false_of_ne (Ne.symm hname)]
      rw [hset, inClasses_cons, inClasses_cons, append_assoc]
      exact K.append (K.refl _) ih

theorem inClasses_mergeClasses (old new : Table Name ClassDecl) :
    K.Same (K.inClasses (mergeClasses old new)) (K.inClasses old ++ K.inClasses new) := by
  obtain ⟨entries⟩ := new
  induction entries generalizing old with
  | nil => exact K.perm (by simp [mergeClasses])
  | cons e entries ih =>
    obtain ⟨name, c⟩ := e
    rw [mergeClasses_cons, inClasses_cons, ← append_assoc]
    exact K.trans (ih _) (K.append (K.inClasses_set_joined c old) (K.refl _))

theorem inClasses_modify (hkeys : classes.names.Nodup) (hname : name ∈ classes.names) (m : Module) :
    K.Same (K.inClasses (classes.modify name (ClassDecl.withLoose m)))
      (K.inClasses classes ++ K.loose m) := by
  obtain ⟨entries⟩ := classes
  induction entries with
  | nil => cases hname
  | cons e entries ih =>
    obtain ⟨n, d⟩ := e
    obtain ⟨hnew, hrest⟩ := nodup_cons.mp hkeys
    have hmodify : modify ⟨(n, d) :: entries⟩ name (ClassDecl.withLoose m) =
        ⟨(if n = name then (n, ClassDecl.withLoose m d) else (n, d)) ::
          (modify ⟨entries⟩ name (ClassDecl.withLoose m)).entries⟩ := rfl
    by_cases heq : n = name
    · subst heq
      have hothers : modify ⟨entries⟩ n (ClassDecl.withLoose m) = ⟨entries⟩ := by
        refine congrArg Table.mk ((map_congr_left fun e he => ?_).trans (map_id _))
        have hne : e.1 ≠ n := by
          rintro rfl
          exact hnew (mem_map_of_mem (f := (·.1)) he)
        simp [hne]
      rw [hmodify, if_pos rfl, inClasses_cons, inClasses_cons, hothers, append_assoc]
      refine K.trans (K.append (K.ofClass_loose m d) (K.refl _)) (K.perm ?_)
      rw [append_assoc]
      exact Perm.append_left _ perm_append_comm
    · rw [hmodify, if_neg heq, inClasses_cons, inClasses_cons, append_assoc]
      refine K.append (K.refl _) (ih hrest ?_)
      exact (mem_cons.mp hname).resolve_left (Ne.symm heq)

theorem all_giveLooseTo (hkeys : m.classes.names.Nodup) (hname : name ∈ m.classes.names) :
    K.Same (K.all (m.giveLooseTo name)) (K.all m) := by
  have hclasses : K.Same (K.inClasses (m.giveLooseTo name).classes)
      (K.inClasses m.classes ++ K.loose m) := K.inClasses_modify hkeys hname m
  have hloose : K.loose (m.giveLooseTo name) = [] := K.loose_clear _
  rw [all, hloose, nil_append]
  exact K.append (K.trans hclasses (K.perm perm_append_comm)) (K.refl _)

theorem all_giveLooseToOrphan (m : Module) : K.Same (K.all m.giveLooseToOrphan) (K.all m) := by
  unfold Module.giveLooseToOrphan
  split
  · have hall : K.all (Module.clearLoose { m with orphans := m.orphans ++ [m.looseFile] }) =
        K.inClasses m.classes ++ (m.orphans.flatMap K.ofFile ++ K.loose m) := by
      rw [all, K.loose_clear]
      simp [Module.clearLoose, K.ofFile_loose]
    refine K.trans (K.perm (.of_eq hall)) (K.perm ?_)
    rw [all, ← Multiset.coe_eq_coe]
    simp only [← Multiset.coe_add]
    ac_rfl
  · exact K.refl _

theorem implementedClass?_mem (h : m.implementedClass? = some c) : c ∈ m.classes.values := by
  unfold Module.implementedClass? at h
  rcases Option.or_eq_some_iff.mp h with h | ⟨-, h⟩
  · exact (mem_filter.mp (mem_of_find?_eq_some h)).1
  · exact (mem_filter.mp (mem_of_head? h)).1

theorem all_giveLooseTo_class (hm : Keyed m.classes) (hc : c ∈ m.classes.values) :
    K.Same (K.all (m.giveLooseTo c.name)) (K.all m) := by
  obtain ⟨name, hmem⟩ := mem_values.mp hc
  refine K.all_giveLooseTo hm.nodup ?_
  rw [hm.name_eq _ hmem]
  exact mem_names.mpr ⟨c, hmem⟩

theorem all_associate (hm : Keyed m.classes) : K.Same (K.all m.associate) (K.all m) := by
  unfold Module.associate
  split
  · exact K.refl _
  split
  · next c hc => exact K.all_giveLooseTo_class hm (implementedClass?_mem hc)
  · exact K.all_giveLooseToOrphan m

def primaryClass? (m : Module) : Option ClassDecl :=
  m.implementedClass?.or
    ((m.classes.values.find? fun c => !(c.methods.isEmpty && c.ivars.isEmpty)).or m.classes.values.head?)

theorem primaryClass?_mem (h : primaryClass? m = some c) : c ∈ m.classes.values := by
  rcases Option.or_eq_some_iff.mp h with h | ⟨-, h⟩
  · exact implementedClass?_mem h
  rcases Option.or_eq_some_iff.mp h with h | ⟨-, h⟩
  · exact mem_of_find?_eq_some h
  · exact mem_of_head? h

theorem associateAll_eq (m : Module) :
    m.associateAll = if m.hasLooseItems then ((primaryClass? m).map fun c => m.giveLooseTo c.name).getD m
      else m := by
  unfold Module.associateAll
  cases m.hasLooseItems with
  | false => rfl
  | true =>
    rw [← primaryClass?]
    cases primaryClass? m <;> rfl

theorem all_associateAll (hm : Keyed m.classes) : K.Same (K.all m.associateAll) (K.all m) := by
  rw [associateAll_eq]
  split
  · cases hc : primaryClass? m with
    | none => exact K.refl _
    | some c => exact K.all_giveLooseTo_class hm (primaryClass?_mem hc)
  · exact K.refl _

theorem all_add (m n : Module) : K.Same (K.all (m.add n)) (K.all m ++ K.all n) := by
  have hclasses : K.Same (K.inClasses (m.add n).classes) (K.inClasses m.classes ++ K.inClasses n.classes) := by
    have h := K.inClasses_mergeClasses m.classes (n.classes.mapValues (ClassDecl.raiseSerials m.nextSerial))
    rwa [inClasses_raise] at h
  have hfiles : (m.add n).orphans.flatMap K.ofFile =
      m.orphans.flatMap K.ofFile ++ n.orphans.flatMap K.ofFile := flatMap_append
  rw [all, hfiles]
  refine K.trans (K.append (K.append (K.loose_add m n) hclasses) (K.refl _)) (K.perm ?_)
  rw [all, all, ← Multiset.coe_eq_coe]
  simp only [← Multiset.coe_add]
  ac_rfl

theorem all_foldl_add (m : Module) (ms : List Module) :
    K.Same (K.all (ms.foldl Module.add m)) (K.all m ++ ms.flatMap K.all) := by
  induction ms generalizing m with
  | nil => exact K.perm (by simp)
  | cons n ms ih =>
    rw [foldl_cons, flatMap_cons, ← append_assoc]
    exact K.trans (ih _) (K.append (K.all_add m n) (K.refl _))

theorem all_merge (ms : List Module) : K.Same (K.all (Module.merge ms)) (ms.flatMap K.all) := by
  have hempty : K.all {} = [] := by
    rw [all, K.loose_empty]
    rfl
  have h := K.all_foldl_add {} ms
  rwa [hempty, nil_append] at h

end ItemKind

namespace Keyed

variable {m n : Module}

theorem joined (h : Keyed classes) (hc : c.name = name) : (joined (classes.find? name) c).name = name := by
  cases hfound : classes.find? name with
  | none => exact hc
  | some old => exact h.name_of_find? (c := old) hfound

theorem mergeClasses (hold : Keyed old)
    (hnew : ∀ e ∈ new.entries, e.2.name = e.1) : Keyed (mergeClasses old new) := by
  obtain ⟨entries⟩ := new
  induction entries generalizing old with
  | nil => exact hold
  | cons e entries ih =>
    obtain ⟨name, c⟩ := e
    rw [mergeClasses_cons]
    exact ih (hold.set (hold.joined (hnew _ (.head _)))) fun e he => hnew e (.tail _ he)

theorem add (hm : Keyed m.classes) (hn : Keyed n.classes) : Keyed (m.add n).classes := by
  have hraised : Keyed (n.classes.mapValues (ClassDecl.raiseSerials m.nextSerial)) :=
    hn.mapValues fun _ => rfl
  exact hm.mergeClasses hraised.name_eq

theorem merge (h : ∀ m ∈ ms, Keyed m.classes) : Keyed (Module.merge ms).classes := by
  have hfold : ∀ (ms : List Module) (m : Module), Keyed m.classes → (∀ n ∈ ms, Keyed n.classes) →
      Keyed (ms.foldl Module.add m).classes := by
    intro ms
    induction ms with
    | nil => exact fun m hm _ => hm
    | cons n ms ih =>
      intro m hm hall
      exact ih _ (hm.add (hall n (.head _))) fun k hk => hall k (.tail _ hk)
  exact hfold ms {} Keyed.empty h

theorem giveLooseTo (hm : Keyed m.classes) : Keyed (m.giveLooseTo name).classes :=
  hm.modify (f := ClassDecl.withLoose m) fun _ => rfl

theorem associate (hm : Keyed m.classes) : Keyed m.associate.classes := by
  unfold Module.associate
  split
  · exact hm
  split
  · exact hm.giveLooseTo
  · unfold Module.giveLooseToOrphan
    split <;> exact hm

theorem associateAll (hm : Keyed m.classes) : Keyed m.associateAll.classes := by
  rw [ItemKind.associateAll_eq]
  split
  · cases ItemKind.primaryClass? m with
    | none => exact hm
    | some c => exact hm.giveLooseTo
  · exact hm

end Keyed

/-- One step on the way from the modules that were read to the module that is written: the loose items
of a module are given to a class or a file, of each source file or of the program, or all modules
become one. -/
inductive Places : List Module → List Module → Prop
  | associate (before after : List Module) (m : Module) :
      Places (before ++ m :: after) (before ++ m.associate :: after)
  | associateAll (before after : List Module) (m : Module) :
      Places (before ++ m :: after) (before ++ m.associateAll :: after)
  | merge (ms : List Module) : Places ms [Module.merge ms]

theorem Places.keyed (h : Places ms ms') (hms : ∀ m ∈ ms, Keyed m.classes) :
    ∀ m ∈ ms', Keyed m.classes := by
  have hreplace : ∀ {before after : List Module} {m m' : Module},
      (∀ k ∈ before ++ m :: after, Keyed k.classes) → (Keyed m.classes → Keyed m'.classes) →
      ∀ k ∈ before ++ m' :: after, Keyed k.classes := by
    intro before after m m' hall hkeeps k hk
    simp only [mem_append, mem_cons] at hall hk
    rcases hk with hk | rfl | hk
    · exact hall k (.inl hk)
    · exact hkeeps (hall m (.inr (.inl rfl)))
    · exact hall k (.inr (.inr hk))
  cases h with
  | associate before after m => exact hreplace hms Keyed.associate
  | associateAll before after m => exact hreplace hms Keyed.associateAll
  | merge =>
    intro m hm
    rw [mem_singleton.mp hm]
    exact Keyed.merge hms

theorem Places.conserves (K : ItemKind α) (h : Places ms ms')
    (hms : ∀ m ∈ ms, Keyed m.classes) : K.Same (ms'.flatMap K.all) (ms.flatMap K.all) := by
  have hreplace : ∀ {before after : List Module} {m m' : Module}, K.Same (K.all m') (K.all m) →
      K.Same ((before ++ m' :: after).flatMap K.all) ((before ++ m :: after).flatMap K.all) := by
    intro before after m m' hall
    rw [flatMap_append, flatMap_append, flatMap_cons, flatMap_cons]
    exact K.append (K.refl _) (K.append hall (K.refl _))
  cases h with
  | associate before after m => exact hreplace (K.all_associate (hms m (by simp)))
  | associateAll before after m => exact hreplace (K.all_associateAll (hms m (by simp)))
  | merge =>
    rw [flatMap_singleton]
    exact K.all_merge ms

theorem conserves_of_places (K : ItemKind α) (hms : ∀ m ∈ ms, Keyed m.classes)
    (h : Relation.ReflTransGen Places ms ms') :
    (∀ m ∈ ms', Keyed m.classes) ∧ K.Same (ms'.flatMap K.all) (ms.flatMap K.all) := by
  induction h with
  | refl => exact ⟨hms, K.refl _⟩
  | tail _ hstep ih => exact ⟨hstep.keyed ih.1, K.trans (hstep.conserves K ih.1) ih.2⟩

theorem hasLooseItems_associateAll {m : Module} (h : m.classes.entries ≠ []) :
    m.associateAll.hasLooseItems = false := by
  rw [ItemKind.associateAll_eq]
  cases hloose : m.hasLooseItems with
  | false => simpa using hloose
  | true =>
    obtain ⟨e, entries, hentries⟩ := exists_cons_of_ne_nil h
    have hsome : (ItemKind.primaryClass? m).isSome = true := by
      rw [ItemKind.primaryClass?, Option.isSome_or, Option.isSome_or]
      simp [values, hentries]
    obtain ⟨c, hc⟩ := Option.isSome_iff_exists.mp hsome
    rw [hc]
    rfl

theorem hasLooseItems_eq_false {m : Module} : m.hasLooseItems = false ↔
    m.functions = [] ∧ m.statics = [] ∧ m.verbatim = [] ∧ m.includes = [] := by
  simp [Module.hasLooseItems, and_assoc]

/-- However modules that were read are merged and their loose items are given away, every function and
every static variable stays, as often as it was there, and so does every kept text and include; and
in a program with a class nothing stays loose. -/
theorem placing_conserves_items (ms ms' : List Module) (hms : ∀ m ∈ ms, m.Collected)
    (h : Relation.ReflTransGen Places ms ms') :
    (ms'.flatMap ItemKind.functions.all).Perm (ms.flatMap ItemKind.functions.all) ∧
    (ms'.flatMap ItemKind.statics.all).Perm (ms.flatMap ItemKind.statics.all) ∧
    SameMembers (ms'.flatMap ItemKind.verbatim.all) (ms.flatMap ItemKind.verbatim.all) ∧
    SameMembers (ms'.flatMap ItemKind.includes.all) (ms.flatMap ItemKind.includes.all) ∧
    ∀ m : Module, m.classes.entries ≠ [] →
      m.associateAll.functions = [] ∧ m.associateAll.statics = [] ∧
      m.associateAll.verbatim = [] ∧ m.associateAll.includes = [] := by
  have hkeyed : ∀ m ∈ ms, Keyed m.classes := fun m hm => (hms m hm).keyed
  refine ⟨(conserves_of_places .functions hkeyed h).2, (conserves_of_places .statics hkeyed h).2,
    (conserves_of_places .verbatim hkeyed h).2, (conserves_of_places .includes hkeyed h).2,
    fun m hclasses => ?_⟩
  exact hasLooseItems_eq_false.mp (hasLooseItems_associateAll hclasses)

open Ast

def helperTree (name : String) (others : List Node) : Node :=
  .bare "TranslationUnitDecl" (others ++
    [.mk { kind := "FunctionDecl", name := some (.text name) } [.bare "CompoundStmt" []]])

def runImplementation : Node :=
  .mk { kind := "ObjCImplementationDecl", name := some (.text "Foo") }
    [.mk { kind := "ObjCMethodDecl", name := some (.text "run") } [.bare "CompoundStmt" []]]

def readModule (root : Node) (stem : String) : Module :=
  { (Module.ofTree {} root).toOption.getD {} with stem }

theorem collected_readModule (h : (Module.ofTree {} root).toOption.isSome = true)
    (stem : String) : (readModule root stem).Collected := by
  cases hread : Module.ofTree {} root with
  | error f =>
    rw [hread] at h
    cases h
  | ok m =>
    have hm : readModule root stem = { m with stem } := by
      rw [readModule, hread]
      rfl
    rw [hm]
    exact .ofTree stem hread

def classFileModule : Module := readModule (helperTree "helper" [runImplementation]) "Foo"

def plainFileModule : Module := readModule (helperTree "other" []) "util"

theorem helpers_conserved :
    classFileModule.functions.length = 1 ∧ plainFileModule.functions.length = 1 ∧
    ([(Module.merge [classFileModule.associate, plainFileModule.associate]).associateAll].flatMap
      ItemKind.functions.all).Perm
      ([classFileModule, plainFileModule].flatMap ItemKind.functions.all) := by
  have hcollected : ∀ m ∈ [classFileModule, plainFileModule], m.Collected := by
    intro m hm
    rcases mem_pair.mp hm with rfl | rfl
    · exact collected_readModule (by decide +kernel) "Foo"
    · exact collected_readModule (by decide +kernel) "util"
  have hplaces : Relation.ReflTransGen Places [classFileModule, plainFileModule]
      [(Module.merge [classFileModule.associate, plainFileModule.associate]).associateAll] :=
    .head (.associate [] _ classFileModule) <|
    .head (.associate [classFileModule.associate] [] plainFileModule) <|
    .head (.merge _) <| .head (.associateAll [] [] _) .refl
  exact ⟨by decide +kernel, by decide +kernel, (placing_conserves_items _ _ hcollected hplaces).1⟩

end ObjcLowering
