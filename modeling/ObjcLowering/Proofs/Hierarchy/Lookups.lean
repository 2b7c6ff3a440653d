import ObjcLowering.Proofs.Hierarchy.SuperIds
import ObjcLowering.Proofs.Lowering.ReturnOwnership

/-!
Looking methods up along the hierarchy, by names of superclasses or along the chain of a class; both may
meet a method of the other kind first.
-/

namespace ObjcLowering

open Hierarchy Lowering List

/-- A module as it is written out: completed, and then changed in ways that keep the hierarchy or add
the class of lock objects to it. -/
inductive Module.Resolved : Module → Prop
  | completed {m m' : Module} : m.Named → m.complete = .ok m' → Resolved m'
  | kept : Resolved m → m'.hierarchy = m.hierarchy → Resolved m'
  | locked {m m' : Module} {root : Name} : Resolved m → root.isText = true →
      m.withSpinLock root = .ok m' → (AddsLock m m' → ¬ ReachesLock m root) → Resolved m'

variable {m : Module} {s : Name}

theorem Module.not_cyclic_of_complete (hm : m.Named) (h : m.complete = .ok m') : ¬ Cyclic m := by
  intro hcyclic
  obtain ⟨start, again, herror, -⟩ := complete_eq_error hm hcyclic
  rw [h] at herror
  cases herror

open Properties Methods in
theorem Module.exists_passes (hm : m.Named) (h : m.complete = .ok m') :
    ∃ m₁ m₂ m₃ m₄ m₅ : Module, synthesize (warnMissingSupers m) = .ok m₁ ∧
      assignIds (checkDuplicates m₁) = .ok m₂ ∧ classify (computeDepths m₂) = .ok m₃ ∧
      checkConformance m₃ = .ok m₄ ∧ TypeArguments.validate m₄ = .ok m₅ ∧ m' = collectInitializers m₅ := by
  have hvalid := validate_eq_ok hm (Module.not_cyclic_of_complete hm h)
  obtain ⟨v, hv, h⟩ := bind_eq_ok.mp h
  rw [hvalid] at hv
  cases hv
  obtain ⟨m₁, h₁, h⟩ := bind_eq_ok.mp h
  obtain ⟨m₂, h₂, h⟩ := bind_eq_ok.mp h
  obtain ⟨m₃, h₃, h⟩ := bind_eq_ok.mp h
  obtain ⟨m₄, h₄, h⟩ := bind_eq_ok.mp h
  obtain ⟨m₅, h₅, h⟩ := bind_eq_ok.mp h
  exact ⟨m₁, m₂, m₃, m₄, m₅, h₁, h₂, h₃, h₄, h₅, (pure_eq_ok.mp h).symm⟩

theorem Module.Resolved.named_climbs (h : m.Resolved) :
    m.Named ∧ ∀ a, ∃ names, Climbs m a names := by
  have hkept : ∀ {m m' : Module}, m'.hierarchy = m.hierarchy →
      (m.Named ∧ ∀ a, ∃ names, Climbs m a names) → m'.Named ∧ ∀ a, ∃ names, Climbs m' a names := by
    rintro m m' hsame ⟨hm, hclimbs⟩
    exact ⟨hm.of_hierarchy_eq hsame, forall_climbs_of_hierarchy_eq hm hsame hclimbs⟩
  induction h with
  | @completed m m' hm hdone =>
    have hcyclic := Module.not_cyclic_of_complete hm hdone
    exact hkept ((gives_complete hm hcyclic).of_ok hdone).1 ⟨hm, forall_climbs_of_not_cyclic hm hcyclic⟩
  | kept _ hsame ih => exact hkept hsame ih
  | @locked m m' root _ hroot hlock hreach ih =>
    obtain ⟨hm, hclimbs⟩ := ih
    rcases withSpinLock_eq_ok hlock with rfl | hwith
    · exact ⟨hm, hclimbs⟩
    · exact ⟨hwith.named hm hroot, (hwith.forall_climbs_iff hclimbs).mpr (hreach hwith.addsLock)⟩

theorem Module.Resolved.named (h : m.Resolved) : m.Named := h.named_climbs.1

theorem Module.Resolved.ascends (h : m.Resolved) (hc : c ∈ m.classes.values) :
    Ascends m c (m.chain c) := by
  obtain ⟨hm, hclimbs⟩ := h.named_climbs
  obtain ⟨names, hnames⟩ := hclimbs c.name
  exact ascends_chain hm hc hnames

theorem Module.resolved_of_isOk (hm : m.Named) (h : m.complete.isOk = true) : m.Resolved := by
  cases hdone : m.complete with
  | error f =>
    rw [hdone] at h
    cases h
  | ok m' =>
    have hcyclic := Module.not_cyclic_of_complete hm hdone
    have hsame := ((gives_complete hm hcyclic).of_ok hdone).1
    exact (Module.Resolved.completed hm hdone).kept hsame.symm

theorem Module.Named.eq_of_name_eq (hm : m.Named) (hc : c ∈ m.classes.values)
    (hd : d ∈ m.classes.values) (h : c.name = d.name) : c = d := by
  have hclass := hm.class?_name hc
  rw [h, hm.class?_name hd] at hclass
  cases hclass
  rfl

theorem Module.Named.isText_name (hm : m.Named) (hc : c ∈ m.classes.values) :
    c.name.isText = true := by
  obtain ⟨name, hmem⟩ := Table.mem_values.mp hc
  rw [hm.name_eq _ hmem]
  exact hm.isText _ hmem

theorem plain_inj {a b : Name} (ha : a.isText = true) (hb : b.isText = true) :
    a.plain = b.plain ↔ a = b := by
  cases a with
  | text s =>
    cases b with
    | text t => exact ⟨congrArg Json.text, Json.text.inj⟩
    | _ => cases hb
  | _ => cases ha

theorem Module.Named.plain_name_inj (hm : m.Named) (hc : c ∈ m.classes.values)
    (hd : d ∈ m.classes.values) : c.name.plain = d.name.plain ↔ c = d := by
  rw [plain_inj (hm.isText_name hc) (hm.isText_name hd)]
  exact ⟨hm.eq_of_name_eq hc hd, congrArg _⟩

theorem Hierarchy.Ascends.subset_values (h : Ascends m c chain) (hc : c ∈ m.classes.values) :
    chain ⊆ m.classes.values := by
  induction h with
  | top _ => exact cons_subset.mpr ⟨hc, nil_subset _⟩
  | up hsome _ ih =>
    obtain ⟨up, -, hclass⟩ := parent?_eq_some.mp hsome
    exact cons_subset.mpr ⟨hc, ih (Module.mem_values_of_class? hclass)⟩

theorem Module.length_chainFrom_le (m : Module) (fuel : Nat) (c : ClassDecl) :
    (m.chainFrom fuel c).length ≤ fuel := by
  induction fuel generalizing c with
  | zero => exact Nat.le_refl 0
  | succ fuel ih =>
    rw [Module.chainFrom]
    cases m.parent? c with
    | none => exact Nat.succ_le_succ (Nat.zero_le fuel)
    | some up => exact Nat.succ_le_succ (ih up)

def firstWith? (m : Module) (c : ClassDecl) (s : Name) : Option ClassDecl :=
  (m.chain c).find? fun d => (d.method? s).isSome

/-- The first class on the chain of a class with a method for the selector, of the class itself or of
its instances. -/
def nearest? (m : Module) (c : ClassDecl) (s : Name) (isClass : Bool) : Option ClassDecl :=
  (m.chain c).find? fun d => (ownMethod? d s isClass).isSome

theorem implementingClass?_eq (hs : s ≠ "dealloc") : implementingClass? m c s = firstWith? m c s := by
  rw [implementingClass?, decide_eq_false hs, Bool.false_and]
  rfl

theorem Hierarchy.Ascends.answeringClass (h : Ascends m c chain) (hm : m.Named)
    (hc : c ∈ m.classes.values) (hfuel : chain.length ≤ fuel)
    (hfind : (chain.find? fun d => (d.method? s).isSome) = some d) :
    answeringClass? m s fuel c.name = some d.name := by
  -- along the chain; the selectors of the root class do not matter, as a class of the chain has a method
  induction h generalizing fuel with
  | @top c hnone =>
    cases fuel with
    | zero => simp at hfuel
    | succ fuel =>
      have hmethod := find?_some hfind
      obtain rfl : d = c := mem_singleton.mp (mem_of_find?_eq_some hfind)
      rw [answeringClass?, hm.class?_name hc]
      exact if_pos hmethod
  | @up c up rest hsome hrest ih =>
    cases fuel with
    | zero => simp at hfuel
    | succ fuel =>
      rw [answeringClass?, hm.class?_name hc]
      cases hmethod : (c.method? s).isSome with
      | true =>
        rw [find?_cons_of_pos (p := fun d : ClassDecl => (d.method? s).isSome) hmethod] at hfind
        cases hfind
        simp [hmethod]
      | false =>
        obtain ⟨name, hname, hclass⟩ := parent?_eq_some.mp hsome
        rw [find?_cons_of_neg (by simp [hmethod])] at hfind
        have hanswer := @ih fuel (Module.mem_values_of_class? hclass)
          (Nat.le_of_succ_le_succ hfuel) hfind
        rw [hm.name_of_class? hclass] at hanswer
        simp [hmethod, hname, hanswer]

theorem definingClass_eq (h : m.Resolved) (hc : c ∈ m.classes.values)
    (hfirst : firstWith? m c s = some d) : definingClass m c.name s = d.name := by
  have hanswer := (h.ascends hc).answeringClass h.named hc (m.length_chainFrom_le _ c) hfirst
  rw [definingClass, hanswer, Option.getD_some]

theorem ownMethod?_eq_some (h : ownMethod? c s isClass = some x) :
    x ∈ c.methods ∧ x.selector = s ∧ x.isClassMethod = isClass := by
  have hfound := find?_some h
  rw [Bool.and_eq_true, beq_iff_eq, beq_iff_eq] at hfound
  exact ⟨mem_of_find?_eq_some h, hfound⟩

theorem method?_isSome (c : ClassDecl) (s : Name) :
    (c.method? s).isSome = ((ownMethod? c s false).isSome || (ownMethod? c s true).isSome) := by
  rw [Bool.eq_iff_iff]
  simp only [ClassDecl.method?, ownMethod?, find?_isSome, Bool.or_eq_true, Bool.and_eq_true]
  constructor
  · rintro ⟨x, hx, hselector⟩
    cases hkind : x.isClassMethod with
    | false => exact .inl ⟨x, hx, hselector, by simp [hkind]⟩
    | true => exact .inr ⟨x, hx, hselector, by simp [hkind]⟩
  · rintro (⟨x, hx, hselector, -⟩ | ⟨x, hx, hselector, -⟩) <;> exact ⟨x, hx, hselector⟩

theorem find?_or_eq_iff {p q : α → Bool} : (xs.find? fun x => p x || q x) = xs.find? p ↔
      ∀ below e above, xs = below ++ e :: above → q e = true → ∃ f ∈ below ++ [e], p f = true := by
  induction xs with
  | nil => simp
  | cons x xs ih =>
    cases hp : p x with
    | true =>
      rw [find?_cons_of_pos (by simp [hp]), find?_cons_of_pos hp]
      refine iff_of_true rfl fun below e above hsplit _ => ⟨x, ?_, hp⟩
      cases below with
      | nil => cases hsplit; exact .head _
      | cons y below => cases hsplit; exact .head _
    | false =>
      have htail : (x :: xs).find? p = xs.find? p := find?_cons_of_neg (by simp [hp])
      rw [htail]
      cases hq : q x with
      | true =>
        -- here the two searches part: one ends at `x`, the other goes on
        rw [find?_cons_of_pos (by simp [hq])]
        refine iff_of_false (fun hfind => ?_) fun hall => ?_
        · rw [find?_some hfind.symm] at hp
          cases hp
        · obtain ⟨f, hf, hpf⟩ := hall [] x xs rfl hq
          rw [mem_singleton.mp hf, hp] at hpf
          cases hpf
      | false =>
        rw [find?_cons_of_neg (by simp [hp, hq]), ih]
        constructor
        · intro hall below e above hsplit he
          cases below with
          | nil => cases hsplit; rw [hq] at he; cases he
          | cons y below =>
            cases hsplit
            obtain ⟨f, hf, hpf⟩ := hall below e above rfl he
            exact ⟨f, .tail _ hf, hpf⟩
        · intro hall below e above hsplit he
          obtain ⟨f, hf, hpf⟩ := hall (x :: below) e above (by rw [hsplit, cons_append]) he
          cases hf with
          | head => rw [hp] at hpf; cases hpf
          | tail _ hf => exact ⟨f, hf, hpf⟩

/-- Where a class on the chain of `c` has a class method for the selector, that class or one below it
has an instance method. -/
def InstancesFirst (m : Module) (c : ClassDecl) (s : Name) : Prop :=
  ∀ below e above, m.chain c = below ++ e :: above → (ownMethod? e s true).isSome →
    ∃ d ∈ below ++ [e], (ownMethod? d s false).isSome

theorem firstWith?_eq_nearest?_iff :
    firstWith? m c s = nearest? m c s false ↔ InstancesFirst m c s := by
  unfold firstWith? nearest? InstancesFirst
  simp only [method?_isSome]
  exact find?_or_eq_iff

theorem exists_firstWith? (h : nearest? m c s isClass = some d) : ∃ e, firstWith? m c s = some e := by
  apply Option.isSome_iff_exists.mp
  rw [firstWith?, find?_isSome]
  refine ⟨d, mem_of_find?_eq_some h, ?_⟩
  have hown := find?_some h
  rw [method?_isSome]
  cases isClass <;> simp [hown]

theorem definingClass_plain_iff (h : m.Resolved) (hc : c ∈ m.classes.values)
    (hnearest : nearest? m c s false = some d) :
    (definingClass m c.name s).plain = d.name.plain ↔ InstancesFirst m c s := by
  obtain ⟨e, he⟩ := exists_firstWith? hnearest
  have hvalues := (h.ascends hc).subset_values hc
  have hmem := hvalues (mem_of_find?_eq_some he)
  have hmem' := hvalues (mem_of_find?_eq_some hnearest)
  rw [definingClass_eq h hc he, h.named.plain_name_inj hmem hmem', ← firstWith?_eq_nearest?_iff, he,
    hnearest, Option.some_inj]

end ObjcLowering
