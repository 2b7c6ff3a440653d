import ObjcLowering.Declarations.Basic
import ObjcLowering.Module.Merge
import ObjcLowering.Proofs.Nodes
import ObjcLowering.Proofs.Tables

/-! What becomes of methods when modules are merged. -/

namespace ObjcLowering

open List hiding after

def ofSelector (s : Name) (methods : List Method) : List Method :=
  methods.filter fun x => x.selector == s

/-- The one of two methods that stays: the later one, unless only the earlier one has a body. -/
def prevail (x y : Method) : Method := if y.body.isSome || x.body.isNone then y else x

def prevailing (x : Method) (later : List Method) : Method := later.foldl prevail x

def contest (s : Name) (old new : List Method) : List Method :=
  (ofSelector s old).take 1 ++ ofSelector s new

def spared (s : Name) (old : List Method) : List Method := (ofSelector s old).drop 1

@[simp] theorem ofSelector_cons_self (x : Method) (methods : List Method) :
    ofSelector x.selector (x :: methods) = x :: ofSelector x.selector methods := by
  simp [ofSelector]

theorem ofSelector_cons_of_eq (h : x.selector = s) :
    ofSelector s (x :: methods) = x :: ofSelector s methods := by
  subst h
  exact ofSelector_cons_self x methods

theorem ofSelector_cons_of_ne (h : x.selector ≠ s) :
    ofSelector s (x :: methods) = ofSelector s methods := by
  simp [ofSelector, h]

theorem mem_ofSelector : x ∈ ofSelector s methods ↔ x ∈ methods ∧ x.selector = s := by
  simp [ofSelector]

theorem mergeMethod_cons_of_eq (h : y.selector = x.selector) :
    mergeMethod x (y :: methods) = prevail y x :: methods := by
  simp only [mergeMethod, h, if_true, prevail]
  split <;> rfl

theorem mergeMethod_cons_of_ne (h : y.selector ≠ x.selector) :
    mergeMethod x (y :: methods) = y :: mergeMethod x methods := by
  simp [mergeMethod, h]

theorem prevail_selector (h : x.selector = y.selector) : (prevail x y).selector = y.selector := by
  unfold prevail
  split
  · rfl
  · exact h

theorem ofSelector_mergeMethod_of_ne (h : x.selector ≠ s) (methods : List Method) :
    ofSelector s (mergeMethod x methods) = ofSelector s methods := by
  induction methods with
  | nil => exact ofSelector_cons_of_ne h
  | cons m ms ih =>
    by_cases hm : m.selector = x.selector
    · rw [mergeMethod_cons_of_eq hm, ofSelector_cons_of_ne (prevail_selector hm ▸ h),
        ofSelector_cons_of_ne (hm ▸ h)]
    · rw [mergeMethod_cons_of_ne hm]
      by_cases hs : m.selector = s
      · rw [ofSelector_cons_of_eq hs, ofSelector_cons_of_eq hs, ih]
      · rw [ofSelector_cons_of_ne hs, ofSelector_cons_of_ne hs, ih]

theorem ofSelector_mergeMethod (x : Method) (methods : List Method) :
    ofSelector x.selector (mergeMethod x methods) =
      match ofSelector x.selector methods with
      | [] => [x]
      | y :: ys => prevail y x :: ys := by
  induction methods with
  | nil => exact ofSelector_cons_self x []
  | cons m ms ih =>
    by_cases hm : m.selector = x.selector
    · rw [mergeMethod_cons_of_eq hm, ofSelector_cons_of_eq hm,
        ofSelector_cons_of_eq (prevail_selector hm)]
    · rw [mergeMethod_cons_of_ne hm, ofSelector_cons_of_ne hm, ofSelector_cons_of_ne hm, ih]

@[simp] theorem mergeMethods_nil (old : List Method) : mergeMethods old [] = old := rfl

@[simp] theorem mergeMethods_cons (old : List Method) (x : Method) (new : List Method) :
    mergeMethods old (x :: new) = mergeMethods (mergeMethod x old) new := rfl

theorem mergeMethods_append (old new later : List Method) :
    mergeMethods old (new ++ later) = mergeMethods (mergeMethods old new) later :=
  foldl_append

theorem ofSelector_mergeMethods (s : Name) (old new : List Method) :
    ofSelector s (mergeMethods old new) =
      match contest s old new with
      | [] => []
      | x :: xs => prevailing x xs :: spared s old := by
  -- each new method of the selector meets the one that prevailed so far, in the place of the first
  induction new generalizing old with
  | nil =>
    rw [mergeMethods_nil, contest, spared]
    cases ofSelector s old <;> rfl
  | cons x new ih =>
    rw [mergeMethods_cons, ih, contest, contest, spared, spared]
    by_cases hx : x.selector = s
    · subst hx
      rw [ofSelector_mergeMethod, ofSelector_cons_self]
      cases ofSelector x.selector old <;> rfl
    · rw [ofSelector_mergeMethod_of_ne hx, ofSelector_cons_of_ne hx]

theorem prevailing_mem (x : Method) (xs : List Method) : prevailing x xs ∈ x :: xs := by
  induction xs generalizing x with
  | nil => simp [prevailing]
  | cons y ys ih =>
    have hmem := ih (prevail x y)
    rw [mem_cons] at hmem
    cases hmem with
    | inl h =>
      rw [prevailing, foldl_cons, ← prevailing, h]
      unfold prevail
      split <;> simp
    | inr h => exact .tail _ (.tail _ h)

theorem prevailing_hasBody (h : ∃ y ∈ x :: xs, y.body.isSome) : (prevailing x xs).body.isSome := by
  induction xs generalizing x with
  | nil => simpa [prevailing] using h
  | cons y ys ih =>
    apply ih
    obtain ⟨z, hz, hbody⟩ := h
    rw [mem_cons, mem_cons] at hz
    have hprevail : x.body.isSome ∨ y.body.isSome → (prevail x y).body.isSome := by
      unfold prevail
      cases hx : x.body <;> cases hy : y.body <;> simp [hx, hy]
    rcases hz with rfl | rfl | hz
    · exact ⟨_, .head _, hprevail (.inl hbody)⟩
    · exact ⟨_, .head _, hprevail (.inr hbody)⟩
    · exact ⟨z, .tail _ hz, hbody⟩

/-- For each method of the selector there is still one of its kind, with a body if it had one. -/
def Retains (s : Name) (before after : List Method) : Prop :=
  ∀ x ∈ before, x.selector = s → ∃ y ∈ after, y.selector = s ∧
    y.isClassMethod = x.isClassMethod ∧ (x.body.isSome → y.body.isSome)

/-- All that contend are of the kind of the one that prevails, or one of their kind is spared. -/
def GivesWay (s : Name) (old new : List Method) : Prop :=
  ∀ x xs, contest s old new = x :: xs → ∀ y ∈ x :: xs,
    y.isClassMethod = (prevailing x xs).isClassMethod ∨
      ∃ z ∈ spared s old, z.isClassMethod = y.isClassMethod ∧ (y.body.isSome → z.body.isSome)

def OneKind (s : Name) (methods : List Method) : Prop :=
  ∀ x ∈ methods, ∀ y ∈ methods, x.selector = s → y.selector = s →
    x.isClassMethod = y.isClassMethod

theorem mem_contest_or_spared :
    x ∈ contest s old new ∨ x ∈ spared s old ↔ x ∈ old ++ new ∧ x.selector = s := by
  have hold : x ∈ (ofSelector s old).take 1 ∨ x ∈ (ofSelector s old).drop 1 ↔ x ∈ ofSelector s old := by
    rw [← mem_append, take_append_drop]
  rw [contest, spared, mem_append, or_right_comm, hold, mem_ofSelector, mem_ofSelector,
    mem_append]
  exact or_and_right.symm

theorem exists_contest_eq_cons (h : x ∈ contest s old new ∨ x ∈ spared s old) :
    ∃ y ys, contest s old new = y :: ys := by
  apply exists_cons_of_ne_nil
  intro hempty
  rw [hempty] at h
  rw [contest, append_eq_nil_iff] at hempty
  cases hold : ofSelector s old <;> simp_all [spared]

theorem retains_mergeMethods_iff :
    Retains s (old ++ new) (mergeMethods old new) ↔ GivesWay s old new := by
  constructor
  · intro h x xs hcontest y hy
    have hmem := mem_contest_or_spared.mp (.inl (hcontest ▸ hy))
    obtain ⟨z, hz, hs, hkind, hbody⟩ := h y hmem.1 hmem.2
    have hz' := mem_ofSelector.mpr ⟨hz, hs⟩
    rw [ofSelector_mergeMethods, hcontest, mem_cons] at hz'
    cases hz' with
    | inl heq => exact .inl (heq ▸ hkind.symm)
    | inr hspared => exact .inr ⟨z, hspared, hkind, hbody⟩
  · intro h y hy hs
    have hmem := mem_contest_or_spared.mpr ⟨hy, hs⟩
    obtain ⟨x, xs, hcontest⟩ := exists_contest_eq_cons hmem
    have hafter : ∀ z ∈ prevailing x xs :: spared s old, z ∈ mergeMethods old new ∧ z.selector = s := by
      intro z hz
      apply mem_ofSelector.mp
      rwa [ofSelector_mergeMethods, hcontest]
    have hfound : ∃ z ∈ prevailing x xs :: spared s old,
        z.isClassMethod = y.isClassMethod ∧ (y.body.isSome → z.body.isSome) := by
      cases hmem with
      | inr hspared => exact ⟨y, .tail _ hspared, rfl, id⟩
      | inl hcontends =>
        rw [hcontest] at hcontends
        cases h x xs hcontest y hcontends with
        | inl hkind =>
          exact ⟨_, .head _, hkind.symm, fun hbody => prevailing_hasBody ⟨y, hcontends, hbody⟩⟩
        | inr hspared =>
          obtain ⟨z, hz, hz'⟩ := hspared
          exact ⟨z, .tail _ hz, hz'⟩
    obtain ⟨z, hz, hz'⟩ := hfound
    exact ⟨z, (hafter z hz).1, (hafter z hz).2, hz'⟩

theorem OneKind.givesWay (h : OneKind s (old ++ new)) : GivesWay s old new := by
  intro x xs hcontest y hy
  have hmem : ∀ z ∈ x :: xs, z ∈ old ++ new ∧ z.selector = s := fun z hz =>
    mem_contest_or_spared.mp (.inl (hcontest ▸ hz))
  have hfirst := hmem _ (prevailing_mem x xs)
  exact .inl (h y (hmem y hy).1 _ hfirst.1 (hmem y hy).2 hfirst.2)

/-- The method without the property it was made for, whose number changes in a merge. -/
def Method.bare (x : Method) : Method := { x with synthesized := none }

theorem map_bare_mergeMethod (x : Method) (methods : List Method) :
    (mergeMethod x methods).map Method.bare = mergeMethod x.bare (methods.map Method.bare) := by
  induction methods with
  | nil => rfl
  | cons m ms ih =>
    by_cases hm : m.selector = x.selector
    · have hprevail : (prevail m x).bare = prevail m.bare x.bare := by
        unfold prevail
        rw [apply_ite Method.bare]
        rfl
      rw [mergeMethod_cons_of_eq hm, map_cons, map_cons, hprevail,
        mergeMethod_cons_of_eq (x := x.bare) (y := m.bare) hm]
    · rw [mergeMethod_cons_of_ne hm, map_cons, map_cons, ih,
        mergeMethod_cons_of_ne (x := x.bare) (y := m.bare) hm]

theorem map_bare_mergeMethods (old new : List Method) :
    (mergeMethods old new).map Method.bare =
      mergeMethods (old.map Method.bare) (new.map Method.bare) := by
  induction new generalizing old with
  | nil => rfl
  | cons x new ih => rw [mergeMethods_cons, ih, map_bare_mergeMethod, map_cons, mergeMethods_cons]

theorem retains_map_bare : Retains s before (after.map Method.bare) ↔ Retains s before after := by
  simp [Retains, Method.bare]

def contributions (cls : Name) (ms : List Module) : List (List Method) :=
  ms.flatMap fun m => (m.classes.entries.filter fun e => e.1 == cls).map fun e => e.2.methods

inductive MadeFrom : Option ClassDecl → List (List Method) → Prop
  | nothing : MadeFrom none []
  | merged {c : ClassDecl} {first : List Method} {rest : List (List Method)} :
      c.methods.map Method.bare = (mergeMethods first rest.flatten).map Method.bare →
      MadeFrom (some c) (first :: rest)

theorem map_bare_raiseSerials (k : Nat) (c : ClassDecl) :
    (c.raiseSerials k).methods.map Method.bare = c.methods.map Method.bare := by
  simp [ClassDecl.raiseSerials, Method.bare, Function.comp_def]

def joined (known : Option ClassDecl) (c : ClassDecl) : ClassDecl :=
  (known.map fun old => mergeClass old c).getD c

theorem MadeFrom.joined (h : MadeFrom known lists) (k : Nat)
    (c : ClassDecl) : MadeFrom (some (joined known (c.raiseSerials k))) (lists ++ [c.methods]) := by
  cases h with
  | nothing => exact .merged (map_bare_raiseSerials k c)
  | @merged old first rest hmethods =>
    -- the serials are raised in what is added, so the methods agree only when bare
    show MadeFrom _ (first :: (rest ++ [c.methods]))
    apply MadeFrom.merged
    rw [flatten_append, mergeMethods_append, map_bare_mergeMethods, ← hmethods,
      flatten_singleton, ← map_bare_raiseSerials k c, ← map_bare_mergeMethods]
    rfl

theorem mergeClasses_cons (classes : Table Name ClassDecl) (name : Name) (c : ClassDecl)
    (entries : List (Name × ClassDecl)) :
    mergeClasses classes ⟨(name, c) :: entries⟩ =
      mergeClasses (classes.set name (joined (classes.find? name) c)) ⟨entries⟩ := by
  simp only [mergeClasses, foldl_cons]
  cases classes.find? name <;> rfl

def occurrences (cls : Name) (ms : List Module) : List ClassDecl :=
  ms.flatMap fun m => (m.classes.entries.filter fun e => e.1 == cls).map (·.2)

theorem contributions_eq (cls : Name) (ms : List Module) :
    contributions cls ms = (occurrences cls ms).map (·.methods) := by
  simp [contributions, occurrences, map_flatMap, Function.comp_def]

section Merged

variable {P : Option ClassDecl → List ClassDecl → Prop}
  (hstep : ∀ {known cs} k c, P known cs → P (some (joined known (c.raiseSerials k))) (cs ++ [c]))

include hstep

theorem merged_mergeClasses (k : Nat) (entries : List (Name × ClassDecl)) (h : P (classes.find? cls) cs) :
    P ((mergeClasses classes (Table.mapValues ⟨entries⟩ (ClassDecl.raiseSerials k))).find? cls)
      (cs ++ (entries.filter fun e => e.1 == cls).map (·.2)) := by
  induction entries generalizing classes cs with
  | nil =>
    rw [filter_nil, map_nil, append_nil]
    exact h
  | cons e entries ih =>
    obtain ⟨name, c⟩ := e
    rw [Table.mapValues, map_cons, mergeClasses_cons]
    by_cases hname : name = cls
    · subst hname
      rw [filter_cons_of_pos (by simp), map_cons, append_cons]
      apply ih
      rw [Table.find?_set, if_pos rfl]
      exact hstep k c h
    · rw [filter_cons_of_neg (by simpa using hname)]
      apply ih
      rw [Table.find?_set, if_neg (Ne.symm hname)]
      exact h

theorem merged_foldl_add (ms : List Module) (h : P (m.class? cls) cs) :
    P ((ms.foldl Module.add m).class? cls) (cs ++ occurrences cls ms) := by
  induction ms generalizing m cs with
  | nil =>
    rw [occurrences, flatMap_nil, append_nil]
    exact h
  | cons n ms ih =>
    rw [foldl_cons, occurrences, flatMap_cons, ← append_assoc]
    exact ih (merged_mergeClasses hstep m.nextSerial n.classes.entries h)

theorem merged_merge (hnone : P none []) (cls : Name) (ms : List Module) :
    P ((Module.merge ms).class? cls) (occurrences cls ms) := by
  show P ((ms.foldl Module.add {}).class? cls) ([] ++ occurrences cls ms)
  exact merged_foldl_add hstep ms hnone

end Merged

theorem madeFrom_merge (cls : Name) (ms : List Module) :
    MadeFrom ((Module.merge ms).class? cls) (contributions cls ms) := by
  rw [contributions_eq]
  refine merged_merge (P := fun known cs => MadeFrom known (cs.map (·.methods))) (fun k c h => ?_)
    .nothing cls ms
  rw [map_append]
  exact h.joined k c

open Ast Declarations

def categoryClass (n : Node) : Name := (n.attrs.interfaceDecl.present?.bind (·.name)).getD ""

def addedMethods (cls : Name) (n : Node) : List Method :=
  if cls.holds ∧ categoryClass n = cls then (methodsOf n).toOption.getD [] else []

def Module.methodsOf (m : Module) (cls : Name) : List Method :=
  ((m.class? cls).map (·.methods)).getD []

theorem methodsOf_addCategory (h : addCategory m n = .ok m') :
    m'.methodsOf cls = mergeMethods (m.methodsOf cls) (addedMethods cls n) := by
  rw [addCategory, ← categoryClass] at h
  dsimp only at h
  cases hholds : (categoryClass n).holds with
  | false =>
    rw [hholds] at h
    cases h
    have hnone : addedMethods cls n = [] := by
      rw [addedMethods, if_neg]
      rintro ⟨hcls, rfl⟩
      rw [hcls] at hholds
      cases hholds
    rw [hnone, mergeMethods_nil]
  | true =>
    simp only [hholds, Bool.not_true, Bool.false_eq_true, if_false, bind_eq_ok, pure_eq_ok] at h
    obtain ⟨name, hname, methods, hmethods, rfl⟩ := h
    obtain rfl := asKey_eq_ok hname
    by_cases hcls : categoryClass n = cls
    · subst hcls
      have hadded : addedMethods (categoryClass n) n = methods := by
        rw [addedMethods, if_pos ⟨hholds, rfl⟩, hmethods]
        rfl
      rw [hadded, Module.methodsOf, Module.class?, Table.find?_set, if_pos rfl, Module.methodsOf]
      cases m.class? (categoryClass n) <;> rfl
    · have hadded : addedMethods cls n = [] := by
        rw [addedMethods, if_neg fun hboth => hcls hboth.2]
      rw [hadded, Module.methodsOf, Module.class?, Table.find?_set, if_neg (Ne.symm hcls),
        mergeMethods_nil]
      rfl

theorem methodsOf_addCategories {ns : List Node} (h : ns.foldlM addCategory m = .ok m') :
    m'.methodsOf cls = mergeMethods (m.methodsOf cls) (ns.flatMap (addedMethods cls)) := by
  induction ns generalizing m with
  | nil =>
    cases h
    rfl
  | cons n ns ih =>
    obtain ⟨m₁, hfirst, hrest⟩ := foldlM_cons_eq_ok.mp h
    rw [ih hrest, methodsOf_addCategory hfirst, flatMap_cons, mergeMethods_append]

/-- When modules are merged, and when categories are added to classes, no method of a selector is lost
exactly if those that give way leave one of their kind behind; so none is lost where the class has
methods of one kind only for the selector. -/
theorem merging_retains_methods (s cls : Name) :
    (∀ ms first rest, contributions cls ms = first :: rest →
      ∃ c, (Module.merge ms).class? cls = some c ∧
        (Retains s (first ++ rest.flatten) c.methods ↔ GivesWay s first rest.flatten) ∧
        (OneKind s (first ++ rest.flatten) → Retains s (first ++ rest.flatten) c.methods)) ∧
    ∀ (m m' : Module) (ns : List Node), ns.foldlM addCategory m = .ok m' →
      (Retains s (m.methodsOf cls ++ ns.flatMap (addedMethods cls)) (m'.methodsOf cls) ↔
        GivesWay s (m.methodsOf cls) (ns.flatMap (addedMethods cls))) ∧
      (OneKind s (m.methodsOf cls ++ ns.flatMap (addedMethods cls)) →
        Retains s (m.methodsOf cls ++ ns.flatMap (addedMethods cls)) (m'.methodsOf cls)) := by
  constructor
  · intro ms first rest hlists
    have hmade := madeFrom_merge cls ms
    rw [hlists] at hmade
    generalize (Module.merge ms).class? cls = known at hmade
    cases hmade with
    | @merged c _ _ hmethods =>
      have hiff : Retains s (first ++ rest.flatten) c.methods ↔ GivesWay s first rest.flatten := by
        rw [← retains_map_bare, hmethods, retains_map_bare, retains_mergeMethods_iff]
      exact ⟨c, rfl, hiff, fun hkind => hiff.mpr hkind.givesWay⟩
  · intro m m' ns hok
    rw [methodsOf_addCategories hok]
    exact ⟨retains_mergeMethods_iff, fun hkind => retains_mergeMethods_iff.mpr hkind.givesWay⟩

def withMethods (methods : List Method) : Module :=
  { classes := ⟨[("Foo", { name := "Foo", methods })]⟩ }

def declaredMake : Method := { selector := "make", returnType := ⟨"void"⟩ }

def definedMake (isClassMethod : Bool) : Method :=
  { declaredMake with isClassMethod, body := some (.bare "CompoundStmt" []) }

def makeCategory : Node :=
  .mk { kind := "ObjCCategoryImplDecl", interfaceDecl := .present { name := some "Foo" } }
    [.mk { kind := "ObjCMethodDecl", name := some (.text "make") } [.bare "CompoundStmt" []]]

theorem make_retained :
    (∃ c, (Module.merge [withMethods [declaredMake], withMethods [definedMake false]]).class? "Foo"
        = some c ∧ Retains "make" [declaredMake, definedMake false] c.methods) ∧
    ∃ m', [makeCategory].foldlM addCategory (withMethods [declaredMake]) = .ok m' ∧
      Retains "make" [declaredMake, definedMake false] (m'.methodsOf "Foo") := by
  have hkind : OneKind "make" [declaredMake, definedMake false] := by
    simp [OneKind, declaredMake, definedMake]
  obtain ⟨hmodules, hcategories⟩ := merging_retains_methods "make" "Foo"
  constructor
  · obtain ⟨c, hc, -, hretains⟩ := hmodules
      [withMethods [declaredMake], withMethods [definedMake false]] _ _ rfl
    exact ⟨c, hc, hretains hkind⟩
  · exact ⟨_, rfl, (hcategories (withMethods [declaredMake]) _ [makeCategory] rfl).2 hkind⟩

theorem classMake_lost :
    (∃ c, (Module.merge [withMethods [definedMake true], withMethods [definedMake false]]).class? "Foo"
        = some c ∧ ¬ Retains "make" [definedMake true, definedMake false] c.methods) ∧
    ∃ m', [makeCategory].foldlM addCategory (withMethods [definedMake true]) = .ok m' ∧
      ¬ Retains "make" [definedMake true, definedMake false] (m'.methodsOf "Foo") := by
  have hlost : ¬ Retains "make" [definedMake true, definedMake false] [definedMake false] := by
    intro h
    obtain ⟨y, hy, -, hkind, -⟩ := h _ (.head _) rfl
    cases mem_singleton.mp hy
    cases hkind
  exact ⟨⟨_, rfl, hlost⟩, _, rfl, hlost⟩

end ObjcLowering
