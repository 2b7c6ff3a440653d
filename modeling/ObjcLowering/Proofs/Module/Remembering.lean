import ObjcLowering.Proofs.Module.Merging
import ObjcLowering.Proofs.Module.Reading

/-! What is known about a class, as declarations are read and modules are merged. -/

namespace ObjcLowering

open List Ast Declarations

inductive ClassPart
  | interface | implementation | category

def ClassPart.add : ClassPart → Module → Node → Except Fault Module
  | .interface => addInterface
  | .implementation => addImplementation
  | .category => addCategory

theorem ClassPart.refines_add (part : ClassPart) (m : Module) (n : Node) :
    Ensures (Refines m) (part.add m n) := by
  cases part with
  | interface => exact refines_addInterface m n
  | implementation => exact refines_addImplementation m n
  | category => exact refines_addCategory m n

def addParts (m : Module) (parts : List (ClassPart × Node)) : Except Fault Module :=
  parts.foldlM (fun m p => p.1.add m p.2) m

theorem refines_addParts (m : Module) (parts : List (ClassPart × Node)) :
    Ensures (Refines m) (addParts m parts) :=
  ensures_foldlM (.refl m) fun m' p hm' m'' hm'' => hm'.trans (p.1.refines_add m' p.2 m'' hm'')

def firstNonempty : List (List α) → List α
  | [] => []
  | xs :: lists => if xs.isEmpty then firstNonempty lists else xs

theorem firstNonempty_append (lists others : List (List α)) : firstNonempty (lists ++ others) =
    if (firstNonempty lists).isEmpty then firstNonempty others else firstNonempty lists := by
  induction lists with
  | nil => rfl
  | cons xs lists ih =>
    rw [cons_append, firstNonempty, firstNonempty, ih]
    cases xs <;> rfl

/-- The property without its number, which changes in a merge. -/
def Property.bare (p : Property) : Property := { p with serial := none }

/-- The class has of each part what the first of `cs` with that part has, and the protocols of all. -/
structure Joins (cs : List ClassDecl) (c : ClassDecl) : Prop where
  superclass : stated? c.superclass = cs.findSome? fun d => stated? d.superclass
  ivars : c.ivars = firstNonempty (cs.map (·.ivars))
  properties : c.properties.map Property.bare = firstNonempty (cs.map fun d => d.properties.map Property.bare)
  protocols : ∀ p, p ∈ c.protocols ↔ ∃ d ∈ cs, p ∈ d.protocols

theorem joins_raiseSerials (k : Nat) (c : ClassDecl) : Joins [c] (c.raiseSerials k) where
  superclass := by simp [ClassDecl.raiseSerials]
  ivars := by cases h : c.ivars <;> simp [ClassDecl.raiseSerials, firstNonempty, h]
  properties := by
    cases h : c.properties <;>
      simp [ClassDecl.raiseSerials, Property.raise, Property.bare, firstNonempty, h]
  protocols := by simp [ClassDecl.raiseSerials]

theorem Joins.mergeClass (h : Joins cs c) (h' : Joins ds d) : Joins (cs ++ ds) (mergeClass c d) where
  superclass := by
    rw [findSome?_append, ← h.superclass, ← h'.superclass, ObjcLowering.mergeClass]
    cases hc : stated? c.superclass <;> cases hd : stated? d.superclass <;> simp [hc, hd]
  ivars := by
    rw [map_append, firstNonempty_append, ← h.ivars, ← h'.ivars]
    rfl
  properties := by
    rw [map_append, firstNonempty_append, ← h.properties, ← h'.properties, isEmpty_map, ← apply_ite]
    rfl
  protocols p := by
    simp only [ObjcLowering.mergeClass, mem_append, or_and_right, exists_or, ← h.protocols, ← h'.protocols]
    cases d.protocols <;> simp [mem_distinct]

theorem joins_merge (cls : Name) (ms : List Module) (h : occurrences cls ms ≠ []) :
    ∃ c, (Module.merge ms).class? cls = some c ∧ Joins (occurrences cls ms) c := by
  have hmerged := merged_merge (P := fun known cs => known.elim (cs = []) (Joins cs))
    (fun {known cs} k c hknown => ?_) rfl cls ms
  · cases hc : (Module.merge ms).class? cls with
    | none =>
      rw [hc] at hmerged
      exact absurd hmerged h
    | some c =>
      rw [hc] at hmerged
      exact ⟨c, rfl, hmerged⟩
  · cases known with
    | none =>
      cases hknown
      exact joins_raiseSerials k c
    | some old => exact Joins.mergeClass hknown (joins_raiseSerials k c)

theorem raiseSerials_zero (c : ClassDecl) : c.raiseSerials 0 = c := by
  have hraise : Property.raise 0 = id := by
    funext p
    simp [Property.raise]
  simp [ClassDecl.raiseSerials, hraise]

theorem nodup_mergeClasses (new : List (Name × ClassDecl)) (h : old.names.Nodup) :
    (mergeClasses old ⟨new⟩).names.Nodup := by
  induction new generalizing old with
  | nil => exact h
  | cons e new ih =>
    rw [mergeClasses_cons]
    exact ih (Table.nodup_names_set h _ _)

theorem nodup_merge (ms : List Module) : (Module.merge ms).classes.names.Nodup :=
  ms.foldlRecOn Module.add (motive := fun m => m.classes.names.Nodup) nodup_nil fun _ hm _ _ =>
    nodup_mergeClasses _ hm

theorem mergeClasses_of_nodup (h : (old.names ++ new.map (·.1)).Nodup) :
    mergeClasses old ⟨new⟩ = ⟨old.entries ++ new⟩ := by
  induction new generalizing old with
  | nil => rw [append_nil]; rfl
  | cons e new ih =>
    obtain ⟨name, c⟩ := e
    have hfresh : name ∉ old.names := fun hmem => (nodup_append.mp h).2.2 _ hmem _ (.head _) rfl
    have hset : (old.set name c).entries = _ := Table.entries_set_of_notMem hfresh
    rw [mergeClasses_cons, Table.find?_eq_none_iff.mpr hfresh]
    refine (ih ?_).trans ?_
    · simpa [Table.names, joined, hset] using h
    · simp [joined, hset]

theorem classes_add_empty (h : m.classes.names.Nodup) : (Module.add {} m).classes = m.classes := by
  have hraise : m.classes.mapValues (ClassDecl.raiseSerials 0) = m.classes := by
    simp [Table.mapValues, raiseSerials_zero]
  show mergeClasses {} (m.classes.mapValues (ClassDecl.raiseSerials 0)) = m.classes
  rw [hraise]
  exact mergeClasses_of_nodup h

theorem classes_foldl_add (ms : List Module) (h : m.classes = n.classes) :
    (ms.foldl Module.add m).classes = (ms.foldl Module.add n).classes := by
  induction ms generalizing m n with
  | nil => exact h
  | cons l ms ih => exact ih (by simp only [Module.add, Module.nextSerial, h])

/-- Nothing that is known about a class is forgotten: reading parts of classes in any order keeps each
class with its superclass and lets no list of its parts become empty; and a merge gives each class the
parts of the first module that has them and the protocols of all, in one go or in steps. -/
theorem classes_never_forgotten :
    (∀ (m m' : Module) parts name c, addParts m parts = .ok m' → m.class? name = some c →
      ∃ d, m'.class? name = some d ∧ Remembers c d) ∧
    (∀ cls ms, occurrences cls ms ≠ [] →
      ∃ c, (Module.merge ms).class? cls = some c ∧ Joins (occurrences cls ms) c) ∧
    ∀ first rest, (Module.merge (Module.merge first :: rest)).classes =
      (Module.merge (first ++ rest)).classes := by
  refine ⟨fun m m' parts name c hparts hc => (refines_addParts m parts m' hparts).known hc, joins_merge,
    fun first rest => ?_⟩
  rw [Module.merge, foldl_cons, Module.merge.eq_1 (first ++ rest), foldl_append]
  exact classes_foldl_add rest (classes_add_empty (nodup_merge first))

def knownFoo : Module :=
  { classes := ⟨[("Foo", { name := "Foo", superclass := some "Base", protocols := ["P"] })]⟩ }

theorem foo_remembered :
    (∃ c m' d, knownFoo.class? "Foo" = some c ∧ addParts knownFoo [(.category, makeCategory)] = .ok m' ∧
      m'.class? "Foo" = some d ∧ Remembers c d) ∧
    ∃ c, (Module.merge [withMethods [declaredMake], knownFoo]).class? "Foo" = some c ∧
      Joins (occurrences "Foo" [withMethods [declaredMake], knownFoo]) c := by
  obtain ⟨hread, hmerge, -⟩ := classes_never_forgotten
  constructor
  · obtain ⟨d, hd, hremembers⟩ := hread knownFoo _ [(.category, makeCategory)] "Foo" _ rfl rfl
    exact ⟨_, _, d, rfl, rfl, hd, hremembers⟩
  · exact hmerge _ _ (by simp [occurrences, withMethods])

end ObjcLowering
