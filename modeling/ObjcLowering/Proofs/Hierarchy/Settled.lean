import ObjcLowering.Proofs.Dispatch.Outlines
import ObjcLowering.Proofs.Module.Conservation

/-! Modules whose classes know their depth. -/

namespace ObjcLowering

open Hierarchy Properties List Table

variable {m m' : Module}

/-- Methods that were made for properties were made for some of the given ones, as far as locks go. -/
def MadeFor (properties : List Property) (methods : List Method) : Prop :=
  ∀ x ∈ methods, ∀ p, x.synthesized = some p → ∃ q ∈ properties, q.isNonatomic = p.isNonatomic

def Module.AwayFromLock (m : Module) (c : ClassDecl) : Prop := ∀ d ∈ m.chain c, d.name ≠ lockName

structure Module.Settled (m : Module) : Prop where
  named : m.Named
  made : ∀ c ∈ m.classes.values, MadeFor c.properties c.methods
  ascends : ∀ c ∈ m.classes.values, m.AwayFromLock c → Ascends m c (m.chain c)
  depth : ∀ c ∈ m.classes.values, m.AwayFromLock c → c.depth = depthOf m c

theorem ascends_of_length_lt (h : (m.chainFrom fuel c).length < fuel) : Ascends m c (m.chainFrom fuel c) := by
  induction fuel generalizing c with
  | zero => simp at h
  | succ fuel ih =>
    rw [Module.chainFrom] at h ⊢
    cases hparent : m.parent? c with
    | none => exact .top hparent
    | some up =>
      rw [hparent] at h
      exact .up hparent (ih (Nat.lt_of_succ_lt_succ h))

theorem Hierarchy.Ascends.chainFrom_eq (h : Ascends m c chain)
    (hfuel : chain.length ≤ fuel) : m.chainFrom fuel c = chain := by
  induction h generalizing fuel with
  | top hnone =>
    cases fuel with
    | zero => simp at hfuel
    | succ fuel => simp only [Module.chainFrom, hnone]
  | up hsome _ ih =>
    cases fuel with
    | zero => simp at hfuel
    | succ fuel =>
      simp only [Module.chainFrom, hsome]
      rw [ih (Nat.le_of_succ_le_succ hfuel)]

theorem Module.mem_chain_self (m : Module) (c : ClassDecl) : c ∈ m.chain c := by
  rw [Module.chain, Module.chainFrom]
  cases m.parent? c <;> exact .head _

theorem Module.chain_subset_values (m : Module) (hc : c ∈ m.classes.values) :
    m.chain c ⊆ m.classes.values := by
  rw [Module.chain]
  generalize m.classes.entries.length + 1 = fuel
  induction fuel generalizing c with
  | zero => exact nil_subset _
  | succ fuel ih =>
    rw [Module.chainFrom]
    cases hparent : m.parent? c with
    | none => exact cons_subset.mpr ⟨hc, nil_subset _⟩
    | some up =>
      obtain ⟨_, -, hclass⟩ := parent?_eq_some.mp hparent
      exact cons_subset.mpr ⟨hc, ih (Module.mem_values_of_class? hclass)⟩

section Mapped

variable (hclasses : m'.classes = m.classes.mapValues f) (hsuper : ∀ c, (f c).superclass = c.superclass)
include hclasses hsuper

theorem parent?_mapValues (c : ClassDecl) : m'.parent? (f c) = (m.parent? c).map f := by
  have hclass : m'.class? = fun a => (m.class? a).map f := by
    funext a
    rw [Module.class?, hclasses, find?_mapValues]
    rfl
  rw [Module.parent?, Module.parent?, hsuper, hclass, Option.map_bind]
  rfl

theorem chain_mapValues (c : ClassDecl) : m'.chain (f c) = (m.chain c).map f := by
  have hlength : m'.classes.entries.length = m.classes.entries.length := by
    rw [hclasses, mapValues, length_map]
  rw [Module.chain, Module.chain, hlength]
  refine (map_id _).symm.trans (Module.map_chainFrom (fun hcd => ?_) rfl)
  rw [← parent?_mapValues hclasses hsuper, ← hcd, Option.map_id]
  rfl

theorem Hierarchy.Ascends.mapValues (h : Ascends m c chain) : Ascends m' (f c) (chain.map f) := by
  induction h with
  | @top c hnone =>
    refine .top ?_
    rw [parent?_mapValues hclasses hsuper c, hnone]
    rfl
  | @up c d rest hsome _ ih =>
    refine .up ?_ ih
    rw [parent?_mapValues hclasses hsuper c, hsome]
    rfl

end Mapped

structure ClassDecl.SamePlace (c d : ClassDecl) : Prop where
  name : d.name = c.name
  superclass : d.superclass = c.superclass
  depth : d.depth = c.depth
  synthesized : (d.methods.map fun x => x.synthesized.map (·.isNonatomic)) =
    c.methods.map fun x => x.synthesized.map (·.isNonatomic)
  properties : d.properties.map (·.isNonatomic) = c.properties.map (·.isNonatomic)

theorem MadeFor.congr (h : MadeFor ps xs) (hmethods : (ys.map fun x => x.synthesized.map (·.isNonatomic)) =
      xs.map fun x => x.synthesized.map (·.isNonatomic))
    (hproperties : qs.map (·.isNonatomic) = ps.map (·.isNonatomic)) : MadeFor qs ys := by
  intro y hy p hp
  have hmem : some p.isNonatomic ∈ ys.map fun x => x.synthesized.map (·.isNonatomic) :=
    mem_map.mpr ⟨y, hy, by rw [hp]; rfl⟩
  rw [hmethods] at hmem
  obtain ⟨x, hx, hxy⟩ := mem_map.mp hmem
  obtain ⟨r, hr, hrp⟩ := Option.map_eq_some_iff.mp hxy
  obtain ⟨q, hq, hqr⟩ := h x hx r hr
  have hatomic : p.isNonatomic ∈ qs.map (·.isNonatomic) := by
    rw [hproperties, ← hrp, ← hqr]
    exact mem_map_of_mem hq
  exact mem_map.mp hatomic

theorem hierarchy_mapValues (hclasses : m'.classes = m.classes.mapValues f)
    (hf : ∀ c, (f c).name = c.name ∧ (f c).superclass = c.superclass) :
    m'.hierarchy = m.hierarchy := by
  simp [Module.hierarchy, hclasses, mapValues, hf]

theorem exists_of_mem_mapValues (hclasses : m'.classes = m.classes.mapValues f)
    (hc : c ∈ m'.classes.values) : ∃ d ∈ m.classes.values, f d = c := by
  rw [hclasses, values_mapValues] at hc
  exact mem_map.mp hc

theorem Module.Settled.mapValues (h : m.Settled) (hclasses : m'.classes = m.classes.mapValues f)
    (hf : ∀ c, ClassDecl.SamePlace c (f c)) : m'.Settled := by
  have hsuper : ∀ c, (f c).superclass = c.superclass := fun c => (hf c).superclass
  have hchain := chain_mapValues hclasses hsuper
  have haway : ∀ d, m'.AwayFromLock (f d) → m.AwayFromLock d := by
    intro d hd e he
    rw [← (hf e).name]
    refine hd (f e) ?_
    rw [hchain]
    exact mem_map_of_mem he
  have hnamed : m'.Named :=
    h.named.of_hierarchy_eq (hierarchy_mapValues hclasses fun c => ⟨(hf c).name, hsuper c⟩)
  refine ⟨hnamed, fun c hc => ?_, fun c hc hlock => ?_, fun c hc hlock => ?_⟩
  all_goals obtain ⟨d, hd, rfl⟩ := exists_of_mem_mapValues hclasses hc
  · exact (h.made d hd).congr (hf d).synthesized (hf d).properties
  · rw [hchain]
    exact (h.ascends d hd (haway d hlock)).mapValues hclasses hsuper
  · rw [(hf d).depth, h.depth d hd (haway d hlock), depthOf, depthOf, hchain, length_map]

theorem Module.Settled.of_classes_eq (h : m.Settled) (hclasses : m'.classes = m.classes) :
    m'.Settled :=
  h.mapValues (f := id) (by simp [hclasses, Table.mapValues]) fun _ => ⟨rfl, rfl, rfl, rfl, rfl⟩

theorem MadeFor.addMissing (h : MadeFor properties methods) (hx : x.synthesized = some p)
    (hp : p ∈ properties) (hadd : addMissing methods x = .ok methods') :
    MadeFor properties methods' := by
  refine forall_addMissing h (fun q hq => ?_) hadd
  rw [hx] at hq
  cases hq
  exact ⟨p, hp, rfl⟩

theorem madeFor_synthesizeProperty (hmade : MadeFor (acc.1.properties ++ p :: rest) acc.1.methods)
    (h : synthesizeProperty acc p = .ok acc') :
    MadeFor (acc'.1.properties ++ rest) acc'.1.methods := by
  obtain ⟨⟨ivar, extra⟩, -, h⟩ := bind_eq_ok.mp h
  obtain ⟨methods, hgetter, h⟩ := bind_eq_ok.mp h
  have hstart : MadeFor (acc.1.properties ++ { p with ivar := some ivar } :: rest) acc.1.methods :=
    hmade.congr rfl (by simp)
  have hmem : { p with ivar := some ivar } ∈
      acc.1.properties ++ { p with ivar := some ivar } :: rest :=
    mem_append_right _ (.head _)
  have hmiddle := hstart.addMissing rfl hmem hgetter
  dsimp only at h
  split at h
  · cases h
    simpa using hmiddle
  · obtain ⟨selector, -, h⟩ := bind_eq_ok.mp h
    obtain ⟨methods', hsetter, h⟩ := bind_eq_ok.mp h
    cases h
    simpa using hmiddle.addMissing rfl hmem hsetter

theorem madeFor_foldlM (hmade : MadeFor (acc.1.properties ++ ps) acc.1.methods)
    (h : ps.foldlM synthesizeProperty acc = .ok acc') :
    MadeFor acc'.1.properties acc'.1.methods := by
  induction ps generalizing acc with
  | nil =>
    cases h
    simpa using hmade
  | cons p ps ih =>
    obtain ⟨next, hnext, hrest⟩ := foldlM_cons_eq_ok.mp h
    exact ih (madeFor_synthesizeProperty hmade hnext) hrest

theorem isNonatomic_numberFrom (next : Nat) (ps : List Property) :
    (numberFrom next ps).map (·.isNonatomic) = ps.map (·.isNonatomic) := by
  induction ps generalizing next with
  | nil => rfl
  | cons p ps ih =>
    rw [numberFrom]
    split <;> simp [ih]

theorem WithAccessors.madeFor (h : WithAccessors c c')
    (hmade : MadeFor c.properties c.methods) : MadeFor c'.properties c'.methods := by
  obtain ⟨next, warnings, h⟩ := h
  exact madeFor_foldlM (hmade.congr rfl (isNonatomic_numberFrom next _)) (synthesizeClass_eq_ok h)

theorem forall_of_forall₂ {P : α → Prop} {Q : β → Prop} (h : Forall₂ R xs ys) (hPQ : ∀ x y, R x y → P x → Q y)
    (hxs : ∀ x ∈ xs, P x) : ∀ y ∈ ys, Q y := by
  intro y hy
  obtain ⟨x, hx, hxy⟩ := exists_of_mem_forall₂ h hy
  exact hPQ x y hxy (hxs x hx)

theorem madeFor_synthesize (hmade : ∀ c ∈ m.classes.values, MadeFor c.properties c.methods)
    (h : synthesize m = .ok m') : ∀ c ∈ m'.classes.values, MadeFor c.properties c.methods := by
  have hentries : ∀ e ∈ m'.classes.entries, MadeFor e.2.properties e.2.methods :=
    forall_of_forall₂ (forall₂_synthesize h) (fun _ _ he => he.2.madeFor) fun e he =>
      hmade e.2 (mem_values.mpr ⟨e.1, he⟩)
  intro c hc
  obtain ⟨name, hmem⟩ := mem_values.mp hc
  exact hentries _ hmem

theorem madeFor_assignIds (hmade : ∀ c ∈ m.classes.values, MadeFor c.properties c.methods)
    (h : assignIds m = .ok m') : ∀ c ∈ m'.classes.values, MadeFor c.properties c.methods := by
  obtain ⟨order, -, hm'⟩ := bind_eq_ok.mp h
  rw [← pure_eq_ok.mp hm']
  intro c hc
  obtain ⟨name, hmem⟩ := mem_values.mp hc
  obtain ⟨e, he, hec⟩ := mem_map.mp hmem
  cases hec
  exact hmade e.2 (mem_values.mpr ⟨e.1, he⟩)

theorem settled_computeDepths (hm : m.Resolved)
    (hmade : ∀ c ∈ m.classes.values, MadeFor c.properties c.methods) :
    (computeDepths m).Settled := by
  have hclasses : (computeDepths m).classes = m.classes.mapValues fun c =>
      { c with depth := depthOf m c } := rfl
  have hresolved : (computeDepths m).Resolved :=
    hm.kept (Module.hierarchy_eq_of_skeleton_eq (skeleton_computeDepths m))
  refine ⟨hresolved.named, fun c hc => ?_, fun c hc _ => hresolved.ascends hc, fun c hc _ => ?_⟩
  all_goals obtain ⟨d, hd, rfl⟩ := exists_of_mem_mapValues hclasses hc
  · exact hmade d hd
  · have hchain := chain_mapValues hclasses (fun _ => rfl) d
    have hlength := congrArg length hchain
    rw [length_map] at hlength
    exact congrArg (fun n : Nat => (n : Int) - 1) hlength.symm

theorem samePlace_classify (c : ClassDecl) :
    c.SamePlace { c with methods := c.methods.map (Methods.classifyMethod m) } := by
  refine ⟨rfl, rfl, rfl, ?_, rfl⟩
  rw [map_map]
  refine map_congr_left fun x _ => ?_
  simp only [Function.comp, Methods.classifyMethod]
  split <;> rfl

theorem samePlace_enrichClass (generics : Table String String) (c : ClassDecl) :
    c.SamePlace (TypeArguments.enrichClass generics c) := by
  refine ⟨rfl, rfl, rfl, ?_, ?_⟩
  · simp only [TypeArguments.enrichClass, map_map]
    refine map_congr_left fun x _ => ?_
    simp only [Function.comp, TypeArguments.enrichMethod]
    cases hmade : x.synthesized with
    | none => simp
    | some p =>
      dsimp only [Option.map_some]
      split <;> rfl
  · simp [TypeArguments.enrichClass, TypeArguments.enrichProperty]

theorem Module.settled_of_complete (hm : m.Named)
    (hmade : ∀ c ∈ m.classes.values, MadeFor c.properties c.methods) (h : m.complete = .ok m') :
    m'.Settled := by
  have hcyclic := Module.not_cyclic_of_complete hm h
  have hresolved : m.Resolved :=
    (Module.Resolved.completed hm h).kept ((gives_complete hm hcyclic).of_ok h).1.symm
  obtain ⟨m₁, m₂, m₃, m₄, m₅, h₁, h₂, h₃, h₄, h₅, rfl⟩ := Module.exists_passes hm h
  -- up to the numbers the hierarchy stays, and accessors are made for the properties at hand
  have hsame : m₂.hierarchy = m.hierarchy := by
    rw [(gives_assignIds _).of_ok h₂]
    have hkept := (gives_synthesize _).of_ok h₁
    have hskeleton : (Methods.checkDuplicates m₁).skeleton = (warnMissingSupers m).skeleton := hkept
    refine (Module.hierarchy_eq_of_skeleton_eq hskeleton).trans ?_
    rw [Module.hierarchy, classes_warnMissingSupers]
    rfl
  have hmade₂ : ∀ c ∈ m₂.classes.values, MadeFor c.properties c.methods := by
    have hmade₁ := madeFor_synthesize (by rwa [classes_warnMissingSupers]) h₁
    exact madeFor_assignIds (m := Methods.checkDuplicates m₁) hmade₁ h₂
  have hdeep := settled_computeDepths (hresolved.kept hsame) hmade₂
  -- from the depths on classes keep their places
  have hclassified : m₃.Settled := by
    rw [classify_eq_ok h₃]
    exact hdeep.mapValues rfl samePlace_classify
  obtain ⟨-, -, h₄⟩ := bind_eq_ok.mp h₄
  have hconforming : m₄.Settled := hclassified.of_classes_eq (by rw [← pure_eq_ok.mp h₄])
  obtain ⟨-, -, h₅⟩ := bind_eq_ok.mp h₅
  obtain ⟨errors, -, h₅⟩ := bind_eq_ok.mp h₅
  have henriched : m₅.Settled := by
    rw [← pure_eq_ok.mp h₅]
    exact hconforming.mapValues rfl (samePlace_enrichClass _)
  exact henriched.of_classes_eq (Methods.classes_collectInitializers m₅)

theorem Module.Named.modify_eq (hm : m.Named) (name : Name) (f : ClassDecl → ClassDecl) :
    m.classes.modify name f = m.classes.mapValues fun c => if c.name = name then f c else c := by
  unfold Table.modify Table.mapValues
  congr 1
  refine map_congr_left fun e he => ?_
  obtain ⟨key, c⟩ := e
  obtain rfl : c.name = key := hm.name_eq _ he
  dsimp only
  split <;> rfl

theorem Module.Settled.giveLooseTo (h : m.Settled) (name : Name) : (m.giveLooseTo name).Settled := by
  refine h.mapValues (h.named.modify_eq name (ClassDecl.withLoose m)) fun c => ?_
  split <;> exact ⟨rfl, rfl, rfl, rfl, rfl⟩

theorem Module.Settled.associateAll (h : m.Settled) : m.associateAll.Settled := by
  unfold Module.associateAll
  split
  · exact h
  · dsimp only
    split
    · exact h.giveLooseTo _
    · exact h

theorem Module.Settled.tagFoundation (h : m.Settled) (root : Name) : (m.tagFoundation root).Settled := by
  have hclasses : (m.tagFoundation root).classes = m.classes.mapValues fun c =>
      if foundationNames.contains c.name || c.name = root then { c with isFoundation := true } else c := by
    refine congrArg Table.mk (map_congr_left fun e he => ?_)
    obtain ⟨key, c⟩ := e
    obtain rfl : c.name = key := h.named.name_eq _ he
    rfl
  refine h.mapValues hclasses fun c => ?_
  split <;> exact ⟨rfl, rfl, rfl, rfl, rfl⟩

section Lock

variable {id : Int} (hlock : WithLock m root id m')
include hlock

theorem Hierarchy.WithLock.chainFrom_eq (haway : ∀ d ∈ m'.chainFrom fuel c, d.name ≠ lockName) :
    m'.chainFrom fuel c = m.chainFrom fuel c := by
  induction fuel generalizing c with
  | zero => rfl
  | succ fuel ih =>
    rw [Module.chainFrom] at haway ⊢
    rw [Module.chainFrom]
    unfold Module.parent? at haway ⊢
    cases hup : stated? c.superclass with
    | none => rfl
    | some up =>
      rw [hup] at haway
      by_cases heq : up = lockName
      · -- the way would go on to the new class
        subst heq
        have hnone : m.class? lockName = none := find?_eq_none_iff.mpr hlock.notMem
        rw [Option.bind_some, hlock.class?_lock] at haway
        rw [Option.bind_some, Option.bind_some, hlock.class?_lock, hnone]
        cases fuel with
        | zero => rfl
        | succ fuel =>
          refine absurd rfl (haway (Lowering.spinLock root id) (.tail _ ?_))
          rw [Module.chainFrom]
          cases m'.parent? (Lowering.spinLock root id) <;> exact .head _
      · simp only [Option.bind_some, hlock.class?_of_ne heq] at haway ⊢
        cases hclass : m.class? up with
        | none => rfl
        | some d =>
          rw [hclass] at haway
          exact congrArg (c :: ·) (ih fun e he => haway e (.tail _ he))

theorem Module.Settled.withLock (h : m.Settled) (hroot : root.isText = true) : m'.Settled := by
  have hlength : m'.classes.entries.length = m.classes.entries.length + 1 := by
    simp [hlock.entries]
  -- without a class of that name no way up of the old module meets it
  have hold : ∀ c ∈ m.classes.values, Ascends m c (m.chain c) ∧ c.depth = depthOf m c := by
    intro c hc
    have haway : m.AwayFromLock c := by
      intro d hd hname
      have hclass := h.named.class?_name (m.chain_subset_values hc hd)
      rw [hname, Module.class?, find?_eq_none_iff.mpr hlock.notMem] at hclass
      cases hclass
    exact ⟨h.ascends c hc haway, h.depth c hc haway⟩
  have hnew : ∀ c ∈ m'.classes.values, m'.AwayFromLock c →
      c ∈ m.classes.values ∧ m'.chain c = m.chain c := by
    intro c hc haway
    have hmem : c ∈ m.classes.values := by
      obtain ⟨name, hname⟩ := mem_values.mp hc
      rw [hlock.entries] at hname
      rcases mem_append.mp hname with hname | hname
      · exact mem_values.mpr ⟨name, hname⟩
      · cases mem_singleton.mp hname
        exact absurd rfl (haway _ (m'.mem_chain_self _))
    refine ⟨hmem, ?_⟩
    rw [Module.chain, hlock.chainFrom_eq haway, hlength]
    exact (hold c hmem).1.chainFrom_eq (Nat.le_succ_of_le (m.length_chainFrom_le _ c))
  refine ⟨hlock.named h.named hroot, fun c hc => ?_, fun c hc haway => ?_, fun c hc haway => ?_⟩
  · obtain ⟨name, hname⟩ := mem_values.mp hc
    rw [hlock.entries] at hname
    rcases mem_append.mp hname with hname | hname
    · exact h.made c (mem_values.mpr ⟨name, hname⟩)
    · cases mem_singleton.mp hname
      exact fun x hx => absurd hx not_mem_nil
  · obtain ⟨hmem, hchain⟩ := hnew c hc haway
    have hle := m.length_chainFrom_le (m.classes.entries.length + 1) c
    have hlt : (m'.chain c).length < m'.classes.entries.length + 1 := by
      rw [hchain, hlength]
      exact Nat.lt_succ_of_le hle
    exact ascends_of_length_lt hlt
  · obtain ⟨hmem, hchain⟩ := hnew c hc haway
    rw [(hold c hmem).2, depthOf, depthOf, hchain]

end Lock

theorem Module.Settled.withSpinLock (h : m.Settled) (hroot : root.isText = true)
    (hlock : m.withSpinLock root = .ok m') : m'.Settled := by
  rcases withSpinLock_eq_ok hlock with rfl | hwith
  · exact h
  · exact h.withLock hwith hroot

theorem Module.Settled.prepare (h : m.Settled) (hp : Program.prepare options sizes m = .ok p) :
    p.module.Settled := by
  simp only [Program.prepare, bind_eq_ok, pure_eq_ok] at hp
  obtain ⟨locked, hlocked, owning, -, counts, -, rfl⟩ := hp
  exact (h.associateAll.withSpinLock rfl hlocked).tagFoundation _

end ObjcLowering
