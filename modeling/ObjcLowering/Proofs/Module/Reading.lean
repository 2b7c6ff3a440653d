import ObjcLowering.Program.Run
import ObjcLowering.Proofs.Nodes
import ObjcLowering.Proofs.Tables

/-!
Modules as they are read from syntax trees: what every single node preserves holds of the module of a
tree.
-/

namespace ObjcLowering

def Ensures {α : Type} (Q : α → Prop) (e : Except Fault α) : Prop := ∀ a, e = .ok a → Q a

section Ensures

theorem ensures_pure (h : Q a) : Ensures Q (pure a) := by
  intro b hb
  cases hb
  exact h

theorem ensures_bind (h : Ensures Q e) (hnext : ∀ a, Q a → Ensures R (next a)) : Ensures R (e >>= next) := by
  intro b hb
  obtain ⟨a, ha, hb⟩ := bind_eq_ok.mp hb
  exact hnext a (h a ha) b hb

theorem ensures_then {next : α → Except Fault β}
    (hnext : ∀ a, e = .ok a → Ensures R (next a)) : Ensures R (e >>= next) := by
  intro b hb
  obtain ⟨a, ha, hb⟩ := bind_eq_ok.mp hb
  exact hnext a ha b hb

theorem ensures_foldlM {xs : List β} (ha : Q a)
    (h : ∀ a x, Q a → Ensures Q (f a x)) : Ensures Q (xs.foldlM f a) := by
  induction xs generalizing a with
  | nil => exact ensures_pure ha
  | cons x xs ih =>
    rw [List.foldlM_cons]
    exact ensures_bind (h a x ha) fun b hb => ih hb

end Ensures

structure Keyed (classes : Table Name ClassDecl) : Prop where
  nodup : classes.names.Nodup
  name_eq : ∀ e ∈ classes.entries, e.2.name = e.1

namespace Keyed

theorem empty : Keyed {} := by
  refine ⟨List.nodup_nil, fun e he => ?_⟩
  cases he

section

variable (h : Keyed classes)

include h

theorem name_of_find? (hc : classes.find? name = some c) : c.name = name :=
  h.name_eq _ (Table.mem_of_find? hc)

theorem set (hname : c.name = name) : Keyed (classes.set name c) := by
  constructor
  · exact Table.nodup_names_set h.nodup _ _
  · intro e he
    rcases Table.eq_or_mem_of_mem_set he with rfl | he
    · exact hname
    · exact h.name_eq e he

theorem erase : Keyed (classes.erase name) := by
  have hsub : (classes.erase name).entries.Sublist classes.entries := List.filter_sublist
  exact ⟨h.nodup.sublist (hsub.map _), fun e he => h.name_eq e (hsub.subset he)⟩

theorem map {f : Name → ClassDecl → ClassDecl}
    (hf : ∀ name c, (f name c).name = c.name) :
    Keyed ⟨classes.entries.map fun e => (e.1, f e.1 e.2)⟩ := by
  constructor
  · rw [Table.names, List.map_map]
    exact h.nodup
  · intro e he
    obtain ⟨d, hd, rfl⟩ := List.mem_map.mp he
    exact (hf d.1 d.2).trans (h.name_eq d hd)

theorem mapValues {f : ClassDecl → ClassDecl}
    (hf : ∀ c, (f c).name = c.name) : Keyed (classes.mapValues f) :=
  h.map (f := fun _ => f) fun _ => hf

theorem modify {f : ClassDecl → ClassDecl}
    (hf : ∀ c, (f c).name = c.name) : Keyed (classes.modify name f) := by
  have hmodify : classes.modify name f =
      ⟨classes.entries.map fun e => (e.1, if e.1 = name then f e.2 else e.2)⟩ := by
    rw [Table.modify]
    congr 1
    refine List.map_congr_left fun e _ => ?_
    dsimp only
    split <;> rfl
  rw [hmodify]
  refine h.map (f := fun n c => if n = name then f c else c) fun n c => ?_
  split
  · exact hf c
  · rfl

end

end Keyed

namespace Declarations

open Ast

structure SameFiles (m m' : Module) : Prop where
  stem : m'.stem = m.stem
  orphans : m'.orphans = m.orphans

theorem SameFiles.refl (m : Module) : SameFiles m m := ⟨rfl, rfl⟩

theorem SameFiles.trans (h : SameFiles m m') (h' : SameFiles m' m'') :
    SameFiles m m'' := ⟨h'.stem.trans h.stem, h'.orphans.trans h.orphans⟩

structure Keeps (m m' : Module) : Prop where
  keyed : Keyed m.classes → Keyed m'.classes
  functions : m'.functions = m.functions
  files : SameFiles m m'

theorem Keeps.refl (m : Module) : Keeps m m := ⟨id, rfl, .refl m⟩

theorem Keeps.trans (h : Keeps m m') (h' : Keeps m' m'') : Keeps m m'' :=
  ⟨h'.keyed ∘ h.keyed, h'.functions.trans h.functions, h.files.trans h'.files⟩

/-- What is known about a class is still known of what it becomes. -/
structure Remembers (c d : ClassDecl) : Prop where
  name : d.name = c.name
  superclass : (stated? c.superclass).isSome → d.superclass = c.superclass
  ivars : c.ivars ≠ [] → d.ivars ≠ []
  protocols : c.protocols ≠ [] → d.protocols ≠ []
  properties : c.properties ≠ [] → d.properties ≠ []

theorem Remembers.refl (c : ClassDecl) : Remembers c c := ⟨rfl, fun _ => rfl, id, id, id⟩

theorem Remembers.trans (h : Remembers c d) (h' : Remembers d e) : Remembers c e where
  name := h'.name.trans h.name
  superclass hc := (h'.superclass (by rwa [h.superclass hc])).trans (h.superclass hc)
  ivars := h'.ivars ∘ h.ivars
  protocols := h'.protocols ∘ h.protocols
  properties := h'.properties ∘ h.properties

theorem remembers_learnSuper (c : ClassDecl) (up : Option Name) : Remembers c (learnSuper c up) := by
  unfold learnSuper
  split
  · next h => exact ⟨rfl, fun hc => by simp_all, id, id, id⟩
  · exact .refl c

structure Refines (m m' : Module) : Prop extends Keeps m m' where
  known : ∀ {name c}, m.class? name = some c → ∃ d, m'.class? name = some d ∧ Remembers c d

theorem Refines.refl (m : Module) : Refines m m := ⟨.refl m, fun hc => ⟨_, hc, .refl _⟩⟩

theorem Refines.trans (h : Refines m m') (h' : Refines m' m'') : Refines m m'' := by
  refine ⟨h.toKeeps.trans h'.toKeeps, fun hc => ?_⟩
  obtain ⟨d, hd, hcd⟩ := h.known hc
  obtain ⟨e, he, hde⟩ := h'.known hd
  exact ⟨e, he, hcd.trans hde⟩

theorem refines_set (h : (m.class? name).elim (c.name = name) fun old => Remembers old c) :
    Refines m { m with errors, classes := m.classes.set name c } := by
  refine ⟨⟨fun hm => hm.set ?_, rfl, rfl, rfl⟩, fun {other d} hd => ?_⟩
  · cases hcls : m.class? name with
    | none => rwa [hcls] at h
    | some old =>
      rw [hcls] at h
      exact h.name.trans (hm.name_of_find? hcls)
  · rw [Module.class?, Table.find?_set]
    split
    · next heq =>
      rw [← heq, hd] at h
      exact ⟨c, rfl, h⟩
    · exact ⟨d, hd, .refl d⟩

theorem refines_addInterface (m : Module) (n : Node) : Ensures (Refines m) (addInterface m n) := by
  unfold addInterface
  split
  · exact ensures_pure (.refl m)
  refine ensures_then fun superclass _ => ?_
  refine ensures_then fun protocols _ => ?_
  refine ensures_then fun ivars _ => ?_
  refine ensures_then fun all _ => ?_
  refine ensures_then fun name _ => ?_
  dsimp only [Module.class?]
  split
  · next hcls => exact ensures_pure (refines_set (by rw [Module.class?, hcls]; rfl))
  · next cls hcls =>
    refine ensures_pure (refines_set ?_)
    rw [Module.class?, hcls]
    refine (remembers_learnSuper cls superclass).trans ?_
    constructor <;> split <;> split <;> split <;> simp_all

theorem refines_changeClass (m : Module) (hf : ∀ c, Ensures (Remembers c) (f c)) :
    Ensures (Refines m) (changeClass m name f) := by
  unfold changeClass
  split
  · next cls hcls =>
    refine ensures_bind (hf cls) fun d hd => ensures_pure (refines_set ?_)
    rwa [hcls]
  · exact ensures_pure (.refl m)

theorem linkIvar_ne_nil {i : Name} (h : ps ≠ []) : linkIvar name i ps ≠ [] := by
  cases ps with
  | nil => exact absurd rfl h
  | cons p ps =>
    unfold linkIvar
    split <;> simp

theorem ensures_linkProperty (cls : ClassDecl) (n : Node) : Ensures (Remembers cls) (linkProperty cls n) := by
  unfold linkProperty
  refine ensures_then fun p _ => ?_
  dsimp only
  split
  · exact ensures_pure (.refl cls)
  · refine ensures_then fun v _ => ensures_pure ?_
    split
    · exact ⟨rfl, fun _ => rfl, id, id, linkIvar_ne_nil⟩
    · exact .refl cls

theorem refines_addImplementationPart (name : Name) (m : Module) (n : Node) :
    Ensures (Refines m) (addImplementationPart name m n) := by
  unfold addImplementationPart
  split
  · refine refines_changeClass m fun c => ensures_then fun i _ => ensures_pure ?_
    exact ⟨rfl, fun _ => rfl, fun _ => by simp, id, id⟩
  split
  · split
    · exact ensures_pure (.refl m)
    refine ensures_then fun found _ => ?_
    cases found with
    | none => exact ensures_pure (.refl m)
    | some method =>
    refine ensures_then fun selector _ => ?_
    split
    · exact ensures_pure ⟨⟨id, rfl, rfl, rfl⟩, (Refines.refl m).known⟩
    have hchange : ∀ shared, Ensures (Refines m) (changeClass { m with statics := m.statics ++ shared } name
        fun cls => .ok { cls with methods := cls.methods ++ [method] }) := by
      intro shared m' hm'
      have hadd (c : ClassDecl) : Ensures (Remembers c) (.ok { c with methods := c.methods ++ [method] }) :=
        ensures_pure ⟨rfl, fun _ => rfl, id, id, id⟩
      obtain ⟨⟨hkeyed, hfunctions, hstem, horphans⟩, hknown⟩ :=
        refines_changeClass { m with statics := m.statics ++ shared } hadd m' hm'
      exact ⟨⟨hkeyed, hfunctions, hstem, horphans⟩, hknown⟩
    dsimp only
    split
    · exact ensures_then fun shared _ => hchange shared
    · exact hchange []
  split
  · exact refines_changeClass m fun c => ensures_linkProperty c n
  · exact ensures_pure (.refl m)

theorem refines_addImplementation (m : Module) (n : Node) :
    Ensures (Refines m) (addImplementation m n) := by
  unfold addImplementation
  split
  · exact ensures_pure (.refl m)
  refine ensures_then fun superclass _ => ?_
  refine ensures_then fun name _ => ?_
  refine ensures_foldlM (refines_set ?_) fun m' part hm' m'' hm'' =>
    hm'.trans (refines_addImplementationPart name m' part m'' hm'')
  cases m.class? name with
  | none => exact (remembers_learnSuper _ _).name
  | some old => exact remembers_learnSuper old superclass

theorem refines_addCategory (m : Module) (n : Node) : Ensures (Refines m) (addCategory m n) := by
  unfold addCategory
  dsimp only
  split
  · exact ensures_pure (.refl m)
  refine ensures_then fun name _ => ?_
  refine ensures_then fun methods _ => ensures_pure (refines_set ?_)
  cases m.class? name with
  | none => rfl
  | some old => exact ⟨rfl, fun _ => rfl, id, id, id⟩

theorem keeps_noteMainClass (m : Module) (n : Node) : Ensures (Keeps m) (noteMainClass m n) := by
  unfold noteMainClass
  split
  · refine ensures_then fun isMain _ => ?_
    split <;> exact ensures_pure ⟨id, rfl, rfl, rfl⟩
  · exact ensures_pure (.refl m)

theorem ensures_addFunction (m : Module) (n : Node) :
    Ensures (fun m' => m'.classes = m.classes ∧ SameFiles m m') (addFunction m n) := by
  unfold addFunction
  dsimp only
  split
  · exact ensures_pure ⟨rfl, .refl m⟩
  refine ensures_then fun params _ => ?_
  split
  · exact ensures_pure ⟨rfl, .refl m⟩
  · exact ensures_then fun _ _ => ensures_then fun _ _ => ensures_then fun _ _ =>
      ensures_then fun _ _ => ensures_pure ⟨rfl, rfl, rfl⟩

theorem keeps_addStatic (m : Module) (n : Node) : Ensures (Keeps m) (addStatic m n) := by
  unfold addStatic
  split
  · exact ensures_pure (.refl m)
  refine ensures_then fun raw _ => ?_
  split
  · exact ensures_pure (.refl m)
  dsimp only
  split
  · refine ensures_then fun hasInit _ => ?_
    split
    · refine ensures_then fun type _ => ensures_pure ?_
      split <;> exact ⟨id, rfl, rfl, rfl⟩
    · exact ensures_pure ⟨id, rfl, rfl, rfl⟩
  · exact ensures_pure ⟨id, rfl, rfl, rfl⟩

theorem keeps_addVariable (m : Module) (n : Node) : Ensures (Keeps m) (addVariable m n) := by
  unfold addVariable
  refine ensures_then fun isMain _ => ?_
  split
  · split
    · refine ensures_then fun isExpanded _ => ?_
      split
      · exact keeps_addStatic m n
      · exact ensures_pure (.refl m)
    · exact ensures_pure (.refl m)
  · exact ensures_pure (.refl m)

theorem keeps_addEnum (m : Module) (n : Node) : Keeps m (addEnum m n) := by
  unfold addEnum
  dsimp only
  split <;> exact ⟨id, rfl, rfl, rfl⟩

theorem keeps_addRecord (m : Module) (n : Node) (file : Json) : Ensures (Keeps m) (addRecord m n file) := by
  unfold addRecord
  refine ensures_then fun isStub _ => ?_
  split
  · split
    · refine ensures_then fun lines _ => ensures_pure ?_
      split <;> exact ⟨id, rfl, rfl, rfl⟩
    · exact ensures_pure (.refl m)
  · refine ensures_then fun isUser _ => ?_
    split
    · refine ensures_then fun lines _ => ensures_pure ?_
      split <;> exact ⟨id, rfl, rfl, rfl⟩
    · exact ensures_pure (.refl m)

theorem keeps_addProtocol (m : Module) (n : Node) : Ensures (Keeps m) (addProtocol m n) := by
  unfold addProtocol
  split
  · exact ensures_pure (.refl m)
  · exact ensures_then fun _ _ => ensures_then fun _ _ => ensures_pure ⟨id, rfl, rfl, rfl⟩

theorem ensures_addNode (hkeeps : ∀ {m m'}, Keeps m m' → P m → P m')
    (hfunction : ∀ m n, P m → Ensures P (addFunction m n)) (m : Module) (n : Node) (file : Json)
    (hm : P m) : Ensures P (addNode m n file) := by
  have hnode {e} (h : Ensures (Keeps m) e) : Ensures P e := fun m' hm' => hkeeps (h m' hm') hm
  have hrefines {e} (h : Ensures (Refines m) e) : Ensures P e := hnode fun m' hm' => (h m' hm').toKeeps
  unfold addNode
  split
  · exact hrefines (refines_addInterface m n)
  · refine hnode (ensures_bind (refines_addImplementation m n) fun m' hm' m'' hm'' => ?_)
    exact hm'.toKeeps.trans (keeps_noteMainClass m' n m'' hm'')
  · exact hnode (keeps_addProtocol m n)
  · exact hrefines (refines_addCategory m n)
  · exact hrefines (refines_addCategory m n)
  · refine ensures_then fun isMain _ => ?_
    split
    · exact hfunction m n hm
    · exact ensures_pure hm
  · refine ensures_then fun isStub _ => ?_
    split
    · exact ensures_pure (hkeeps (keeps_addEnum m n) hm)
    refine ensures_then fun isUser _ => ?_
    split
    · exact ensures_pure (hkeeps (keeps_addEnum m n) hm)
    · exact ensures_pure hm
  · exact hnode (keeps_addRecord m n file)
  · exact hnode (keeps_addVariable m n)
  · exact ensures_pure hm

mutual

theorem ensures_addTree (hnode : ∀ m n file, P m → Ensures P (addNode m n file))
    (hm : P m) : (n : Node) → Ensures P (addTree m file n)
  | .mk a ns => by
    rw [addTree]
    refine ensures_then fun file' _ => ?_
    refine ensures_bind (hnode m _ file' hm) fun m' hm' => ?_
    split
    · exact ensures_pure hm'
    · exact ensures_addTrees hnode hm' ns

theorem ensures_addTrees (hnode : ∀ m n file, P m → Ensures P (addNode m n file))
    {m : Module} (hm : P m) : (ns : List Node) → Ensures P (addTrees m file ns)
  | [] => by
    rw [addTrees]
    exact ensures_pure hm
  | n :: ns => by
    rw [addTrees]
    refine ensures_then fun file' _ => ?_
    exact ensures_bind (ensures_addTree hnode hm n) fun m' hm' => ensures_addTrees hnode hm' ns

end

theorem keeps_addInclude (fs : Files) (source : String) (dir : Path) (m : Module) (t : Tree) :
    Ensures (Keeps m) (addInclude fs source dir m t) := by
  unfold addInclude
  refine ensures_then fun line _ => ?_
  split <;> exact ensures_pure ⟨id, rfl, rfl, rfl⟩

theorem keeps_scanIncludes (fs : Files) (m : Module) (path : Path) :
    Ensures (Keeps m) (scanIncludes fs m path) := by
  unfold scanIncludes
  split
  · exact ensures_pure (.refl m)
  · refine ensures_foldlM (.refl m) fun m' t hm' m'' hm'' => ?_
    exact hm'.trans (keeps_addInclude fs _ _ m' t m'' hm'')

theorem keeps_addHeaderTexts (source : String) (m : Module) (ts : List Tree) :
    Ensures (Keeps m) (addHeaderTexts source m ts) := by
  induction ts generalizing m with
  | nil => exact ensures_pure (.refl m)
  | cons t ts ih =>
    rw [addHeaderTexts]
    refine ensures_then fun kept _ => ?_
    cases kept with
    | none => exact ih m
    | some text =>
      intro m' hm'
      have hrest := ih { m with headerVerbatim := addNew m.headerVerbatim text } m' hm'
      exact ⟨hrest.keyed, hrest.functions, hrest.files.stem, hrest.files.orphans⟩

theorem keeps_scanHeader (fs : Files) (m : Module) (path : Path) :
    Ensures (Keeps m) (scanHeader fs m path) := by
  unfold scanHeader
  split
  · exact ensures_pure (.refl m)
  · exact keeps_addHeaderTexts _ m _

theorem keeps_addMainTexts (fs : Files) (source : String) (dir : Path) (m : Module)
    (ts : List Tree) : Ensures (Keeps m) (addMainTexts fs source dir m ts) := by
  induction ts generalizing m with
  | nil => exact ensures_pure (.refl m)
  | cons t ts ih =>
    have hkept : ∀ text, Ensures (Keeps m)
        (addMainTexts fs source dir { m with verbatim := m.verbatim ++ [text] } ts) := by
      intro text m' hm'
      have hrest := ih { m with verbatim := m.verbatim ++ [text] } m' hm'
      exact ⟨hrest.keyed, hrest.functions, hrest.files.stem, hrest.files.orphans⟩
    rw [addMainTexts]
    split
    · exact ensures_then fun text _ => hkept text
    split
    · exact ensures_then fun text _ => hkept text
    split
    · refine ensures_bind (keeps_addInclude fs source dir m t) fun m' hm' m'' hm'' => ?_
      exact hm'.trans (ih m' m'' hm'')
    · exact ih m

theorem keeps_addSourceTexts (fs : Files) (m : Module) (path : Path) :
    Ensures (Keeps m) (addSourceTexts fs m path) := by
  unfold addSourceTexts
  split
  · exact ensures_pure (.refl m)
  · refine ensures_bind (Q := Keeps m) (ensures_foldlM (.refl m) fun m' header hm' => ?_)
      fun m' hm' m'' hm'' => hm'.trans (keeps_addMainTexts fs _ _ m' _ m'' hm'')
    refine ensures_bind (keeps_scanIncludes fs m' header) fun m₁ h₁ m₂ h₂ => ?_
    exact (hm'.trans h₁).trans (keeps_scanHeader fs m₁ header m₂ h₂)

theorem keeps_distribute (m : Module) : Keeps m (distribute m) := by
  unfold distribute
  dsimp only
  split
  · exact .refl m
  · refine ⟨fun hm => ?_, ?_, ?_⟩
    · have hincludes : Keyed (m.classes.mapValues fun c =>
          if c.methods.isEmpty then c else { c with includes := addAllNew c.includes m.includes }) := by
        refine hm.mapValues fun c => ?_
        split <;> rfl
      dsimp only
      refine Keyed.modify ?_ fun c => rfl
      split
      · dsimp only
        exact hincludes.modify fun c => rfl
      · exact hincludes
    · split <;> rfl
    · split <;> exact ⟨rfl, rfl⟩

end Declarations

open Ast Declarations

/-- What the parts of a module that all nodes but those of functions keep determine, and what functions
preserve, holds of a module that is read. -/
theorem ensures_ofTree (hkeeps : ∀ {m m'}, Keeps m m' → P m → P m')
    (hfunction : ∀ m n, P m → Ensures P (addFunction m n)) (hempty : P {}) (fs : Files) (root : Node) :
    Ensures P (Module.ofTree fs root) := by
  unfold Module.ofTree
  refine ensures_bind (ensures_addTree (ensures_addNode hkeeps hfunction) hempty root) fun m hm => ?_
  refine ensures_then fun main _ => ?_
  refine ensures_then fun main _ => ?_
  have hrest : ∀ m', Keeps m m' → Ensures P (do
      root.checkTree
      let m' := { m' with errors := m'.errors ++ (← unsupported m'.source root) }
      return distribute m') := by
    intro m' hm'
    refine ensures_then fun _ _ => ensures_then fun errors _ => ensures_pure (hkeeps (hm'.trans ?_) hm)
    have hdistribute := keeps_distribute { m' with errors := m'.errors ++ errors }
    exact ⟨hdistribute.keyed, hdistribute.functions, hdistribute.files.stem, hdistribute.files.orphans⟩
  dsimp only
  split
  · refine ensures_bind (keeps_addSourceTexts fs _ _) fun m' hm' => hrest m' ?_
    exact ⟨fun h => hm'.keyed h.erase, hm'.functions, hm'.files.stem, hm'.files.orphans⟩
  · exact hrest _ ⟨fun h => h.erase, rfl, rfl, rfl⟩

inductive Module.Collected : Module → Prop
  | ofTree (stem : String) :
      Module.ofTree fs root = .ok m → Collected { m with stem }
  | withSource {fs : Files} {source : String} {m m' : Module} :
      Collected m → Program.withSource fs source m = .ok m' → Collected m'

theorem Module.Collected.keyed {m : Module} (h : m.Collected) : Keyed m.classes := by
  induction h with
  | ofTree stem hread =>
    dsimp only
    refine ensures_ofTree (P := fun m => Keyed m.classes) (fun h => h.keyed) (fun m n hm m' hm' => ?_) .empty _ _ _
      hread
    dsimp only
    rwa [(ensures_addFunction m n m' hm').1]
  | withSource _ hsource ih =>
    simp only [Program.withSource, bind_eq_ok, pure_eq_ok] at hsource
    obtain ⟨isStub, -, rfl⟩ := hsource
    dsimp only
    exact ih.mapValues fun c => rfl

end ObjcLowering
