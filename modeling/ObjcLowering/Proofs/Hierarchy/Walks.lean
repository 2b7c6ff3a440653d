import ObjcLowering.Lowering.Lookup
import ObjcLowering.Proofs.Hierarchy.Ancestry

/-! Walks up the hierarchy without a bound. -/

namespace ObjcLowering.Hierarchy

open Lowering

inductive Loop {σ ρ : Type} (step : σ → σ ⊕ ρ) : σ → ρ → Prop
  | done {s : σ} {r : ρ} : step s = .inr r → Loop step s r
  | next {s t : σ} {r : ρ} : step s = .inl t → Loop step t r → Loop step s r

def goUp {σ ρ : Type} (m : Module) (c : ClassDecl) (next : ClassDecl → σ) (last : ρ) : σ ⊕ ρ :=
  match m.parent? c with
  | some up => .inl (next up)
  | none => .inr last

def gatherStep (m : Module) : ClassDecl × List Name → ClassDecl × List Name ⊕ List Name
  | (c, found) => goUp m c (fun up => (up, found ++ up.methods.map (·.selector))) found

def implementingStep (m : Module) (selector : Name) (c : ClassDecl) : ClassDecl ⊕ Option ClassDecl :=
  if (c.method? selector).isSome then .inr (some c) else goUp m c id none

def definingStep (m : Module) (selector first name : Name) : Name ⊕ Name :=
  match m.class? name with
  | none => .inr first
  | some c =>
    if (c.method? selector).isSome then .inr name
    else
      match stated? c.superclass with
      | some up => .inl up
      | none => .inr (if rootSelectors.contains selector then name else first)

def baseStep (m : Module) : ClassDecl × String → ClassDecl × String ⊕ String
  | (c, path) => goUp m c (fun up => (up, path ++ "base.")) path

def ivarStep (m : Module) (ivar : Name) : ClassDecl × Nat → ClassDecl × Nat ⊕ String
  | (c, steps) =>
    if hasIvar c ivar then .inr (Text.copies steps "base.")
    else goUp m c (fun up => (up, steps + 1)) ""

def subclassStep (m : Module) (parent : Name) (c : ClassDecl) : ClassDecl ⊕ Bool :=
  match stated? c.superclass with
  | none => .inr false
  | some up =>
    if up = parent then .inr true
    else
      match m.class? up with
      | some d => .inl d
      | none => .inr false

/-- Numbering a class after its superclass: `order` are the classes numbered before, and the last list
those numbered afterwards. -/
inductive Numbers (m : Module) : List Name → Name → List Name → Prop
  | known : a ∈ order → Numbers m order a order
  | top {order : List Name} {a : Name} : a ∉ order → (m.class? a).bind m.parent? = none →
      Numbers m order a (order ++ [a])
  | after {order order' : List Name} {a : Name} {up : ClassDecl} : a ∉ order →
      (m.class? a).bind m.parent? = some up → Numbers m order up.name order' →
      Numbers m order a (order' ++ [a])

inductive Deep (m : Module) : ClassDecl → Int → Prop
  | top {c : ClassDecl} : m.parent? c = none → Deep m c 0
  | under : m.parent? c = some up → Deep m up n → Deep m c (1 + n)

structure WalksEnd (m : Module) : Prop where
  numbers : ∀ order a, Numbers m order a (number m (m.classes.entries.length + 1) order a)
  deep : ∀ c ∈ m.classes.values, Deep m c (depthOf m c)
  gather : ∀ c ∈ m.classes.values, Loop (gatherStep m) (c, c.methods.map (·.selector))
    ((m.chain c).flatMap fun d => d.methods.map (·.selector))
  implementing : ∀ c ∈ m.classes.values, ∀ selector : Name,
    (selector = "dealloc" → hasDealloc m c = false) →
    Loop (implementingStep m selector) c (implementingClass? m c selector)
  defining : ∀ selector a, Loop (definingStep m selector a) a (definingClass m a selector)
  base : ∀ c ∈ m.classes.values, Loop (baseStep m) (c, "obj->") (rootFields m c.name)
  ivar : ∀ c ∈ m.classes.values, ∀ ivar, Loop (ivarStep m ivar) (c, 0) (ivarPath m c ivar)
  subclass : ∀ c ∈ m.classes.values, ∀ parent,
    Loop (subclassStep m parent) c (isSubclass m c.name parent)

inductive Ascends (m : Module) : ClassDecl → List ClassDecl → Prop
  | top {c : ClassDecl} : m.parent? c = none → Ascends m c [c]
  | up {c d : ClassDecl} {rest : List ClassDecl} : m.parent? c = some d → Ascends m d rest →
      Ascends m c (c :: rest)

theorem ascends_chainFrom (h : Climbs m a names)
    (hc : above m a = stated? c.superclass) (hfuel : names.length ≤ fuel) :
    Ascends m c (m.chainFrom fuel c) := by
  induction h generalizing c fuel with
  | top hnone =>
    cases fuel with
    | zero => simp at hfuel
    | succ fuel =>
      have hparent : m.parent? c = none := by simp [Module.parent?, ← hc, hnone]
      simp only [Module.chainFrom, hparent]
      exact .top hparent
  | up hsome _ ih =>
    cases fuel with
    | zero => simp at hfuel
    | succ fuel =>
      rw [Module.chainFrom]
      cases hparent : m.parent? c with
      | none => exact .top hparent
      | some d =>
        obtain ⟨up, hup, hclass⟩ := parent?_eq_some.mp hparent
        rw [← hc, hsome] at hup
        cases hup
        refine .up hparent (ih ?_ (by simpa using hfuel))
        simp [above, hclass]

theorem ascends_chain (hm : m.Named) (hc : c ∈ m.classes.values) (h : Climbs m c.name names) :
    Ascends m c (m.chain c) :=
  ascends_chainFrom h (by simp [above, hm.class?_name hc]) h.length_le

theorem goUp_of_some (h : m.parent? c = some d) : goUp m c next last = .inl (next d) := by
  simp [goUp, h]

theorem goUp_of_none (h : m.parent? c = none) : goUp m c next last = .inr last := by
  simp [goUp, h]

namespace Ascends

variable (h : Ascends m c chain)

include h

theorem length_pos : 0 < chain.length := by
  cases h <;> simp

theorem deep : Deep m c (chain.length - 1) := by
  induction h with
  | top hnone => exact .top hnone
  | @up c d rest hsome _ ih =>
    have hlength : ((c :: rest).length - 1 : Int) = 1 + (rest.length - 1) := by
      rw [List.length_cons]
      omega
    rw [hlength]
    exact .under hsome ih

theorem gather (found : List Name) :
    Loop (gatherStep m) (c, found)
      (found ++ chain.tail.flatMap fun d => d.methods.map (·.selector)) := by
  induction h generalizing found with
  | top hnone => exact .done (by simp [gatherStep, goUp_of_none hnone])
  | @up c d rest hsome hrest ih =>
    refine .next (goUp_of_some hsome) ?_
    have hloop := ih (found ++ d.methods.map (·.selector))
    cases hrest <;> simpa using hloop

theorem implementing (selector : Name) :
    Loop (implementingStep m selector) c
      (chain.find? fun d => (d.method? selector).isSome) := by
  induction h with
  | @top c hnone =>
    refine .done ?_
    cases hmethod : (c.method? selector).isSome <;>
      simp [implementingStep, hmethod, goUp_of_none hnone]
  | @up c d rest hsome _ ih =>
    cases hmethod : (c.method? selector).isSome with
    | true => exact .done (by simp [implementingStep, hmethod])
    | false =>
      rw [List.find?_cons_of_neg (by simp [hmethod])]
      exact .next (by simp [implementingStep, hmethod, goUp_of_some hsome]) ih

theorem base (path : String) :
    Loop (baseStep m) (c, path) (path ++ Text.copies (chain.length - 1) "base.") := by
  induction h generalizing path with
  | top hnone => exact .done (by simp [baseStep, goUp_of_none hnone, Text.copies])
  | up hsome hrest ih =>
    refine .next (goUp_of_some hsome) ?_
    have hloop := ih (path ++ "base.")
    cases hrest <;> simpa [Text.copies, List.replicate_succ, String.append_assoc] using hloop

theorem ivar (ivar : Name) (steps : Nat) :
    Loop (ivarStep m ivar) (c, steps)
      (match chain.findIdx? fun d => hasIvar d ivar with
        | some more => Text.copies (steps + more) "base."
        | none => "") := by
  induction h generalizing steps with
  | @top c hnone =>
    refine .done ?_
    cases hivar : hasIvar c ivar <;> simp [ivarStep, hivar, goUp_of_none hnone]
  | @up c d rest hsome _ ih =>
    cases hivar : hasIvar c ivar with
    | true => exact .done (by simp [ivarStep, hivar, List.findIdx?_cons])
    | false =>
      have hloop := ih (steps + 1)
      refine .next (by simp [ivarStep, hivar, goUp_of_some hsome]; rfl) ?_
      rw [List.findIdx?_cons, hivar]
      cases hfound : rest.findIdx? fun d => hasIvar d ivar with
      | none => simpa [hfound] using hloop
      | some more =>
        rw [hfound] at hloop
        simpa [Nat.add_right_comm, Nat.add_assoc] using hloop

theorem subclass (parent : Name) :
    Loop (subclassStep m parent) c
      (chain.any fun d => stated? d.superclass == some parent) := by
  induction h with
  | @top c hnone =>
    refine .done ?_
    cases hup : stated? c.superclass with
    | none => simp [subclassStep, hup]
    | some up =>
      have hclass : m.class? up = none := by simpa [Module.parent?, hup] using hnone
      by_cases hparent : up = parent <;> simp [subclassStep, hup, hclass, hparent]
  | @up c d rest hsome _ ih =>
    obtain ⟨up, hup, hclass⟩ := parent?_eq_some.mp hsome
    by_cases hparent : up = parent
    · exact .done (by simp [subclassStep, hup, hparent])
    · have hany : ((c :: rest).any fun d => stated? d.superclass == some parent)
          = rest.any fun d => stated? d.superclass == some parent := by
        simp [hup, hparent]
      rw [hany]
      exact .next (by simp [subclassStep, hup, hparent, hclass]) ih

end Ascends

theorem Climbs.defining (h : Climbs m a names) (selector first : Name) (hfuel : names.length ≤ fuel) :
    Loop (definingStep m selector first) a ((answeringClass? m selector fuel a).getD first) := by
  induction h generalizing fuel with
  | @top a hnone =>
    cases fuel with
    | zero => simp at hfuel
    | succ fuel =>
      refine .done ?_
      cases hclass : m.class? a with
      | none => simp [definingStep, answeringClass?, hclass]
      | some c =>
        have hup : stated? c.superclass = none := by simpa [above, hclass] using hnone
        cases hmethod : (c.method? selector).isSome <;>
          by_cases hroot : rootSelectors.contains selector <;>
            simp_all [definingStep, answeringClass?]
  | @up a b rest hsome _ ih =>
    cases fuel with
    | zero => simp at hfuel
    | succ fuel =>
      obtain ⟨c, hclass, hup⟩ := above_eq_some.mp hsome
      cases hmethod : (c.method? selector).isSome with
      | true => exact .done (by simp [definingStep, answeringClass?, hclass, hmethod])
      | false =>
        have hanswer : answeringClass? m selector (fuel + 1) a = answeringClass? m selector fuel b := by
          simp [answeringClass?, hclass, hmethod, hup]
        rw [hanswer]
        exact .next (by simp [definingStep, hclass, hmethod, hup]) (ih (by simpa using hfuel))

theorem Climbs.numbers (hm : m.Named) (h : Climbs m a names) (order : List Name)
    (hfuel : names.length ≤ fuel) : Numbers m order a (number m fuel order a) := by
  induction h generalizing fuel with
  | @top a hnone =>
    cases fuel with
    | zero => simp at hfuel
    | succ fuel =>
      have hparent : (m.class? a).bind m.parent? = none := by
        cases hclass : m.class? a with
        | none => rfl
        | some c =>
          have hup : stated? c.superclass = none := by simpa [above, hclass] using hnone
          simp [Module.parent?, hup]
      by_cases hmem : a ∈ order
      · simpa [number, hmem] using Numbers.known hmem
      · simpa [number, hmem, hparent] using Numbers.top hmem hparent
  | @up a b rest hsome _ ih =>
    cases fuel with
    | zero => simp at hfuel
    | succ fuel =>
      by_cases hmem : a ∈ order
      · simpa [number, hmem] using Numbers.known hmem
      · cases hparent : (m.class? a).bind m.parent? with
        | none => simpa [number, hmem, hparent] using Numbers.top hmem hparent
        | some d =>
          have hname : d.name = b := by
            obtain ⟨c, hclass, hd⟩ := Option.bind_eq_some_iff.mp hparent
            obtain ⟨up, hup, hupper⟩ := parent?_eq_some.mp hd
            rw [above_eq_some.mpr ⟨c, hclass, hup⟩] at hsome
            cases hsome
            exact hm.name_of_class? hupper
          have hrest := @ih fuel (by simpa using hfuel)
          rw [← hname] at hrest
          simpa [number, hmem, hparent] using Numbers.after hmem hparent hrest

theorem walksEnd_of_climbs (hm : m.Named) (h : ∀ a, ∃ names, Climbs m a names) : WalksEnd m := by
  have hchain : ∀ c ∈ m.classes.values, Ascends m c (m.chain c) := fun c hc =>
    ascends_chain hm hc (h c.name).choose_spec
  refine ⟨fun order a => ?_, fun c hc => (hchain c hc).deep, fun c hc => ?_,
    fun c hc selector hdealloc => ?_, fun selector a => ?_, fun c hc => ?_, fun c hc ivar => ?_,
    fun c hc parent => ?_⟩
  · obtain ⟨names, hnames⟩ := h a
    exact hnames.numbers hm order hnames.length_le
  · have hgather := (hchain c hc).gather (c.methods.map (·.selector))
    cases hlist : m.chain c with
    | nil => exact absurd (hchain c hc).length_pos (by simp [hlist])
    | cons d rest =>
      have hhead := hchain c hc
      rw [hlist] at hgather hhead
      cases hhead <;> exact hgather
  · have hskip : (selector = "dealloc" && hasDealloc m c) = false := by
      by_cases hselector : selector = "dealloc" <;> simp [hselector, hdealloc]
    rw [implementingClass?, hskip]
    exact (hchain c hc).implementing selector
  · obtain ⟨names, hnames⟩ := h a
    exact hnames.defining selector a hnames.length_le
  · rw [rootFields, hm.class?_name hc]
    exact (hchain c hc).base "obj->"
  · have hloop := (hchain c hc).ivar ivar 0
    simp only [Nat.zero_add] at hloop
    exact hloop
  · rw [isSubclass, hm.class?_name hc]
    exact (hchain c hc).subclass parent

end ObjcLowering.Hierarchy
