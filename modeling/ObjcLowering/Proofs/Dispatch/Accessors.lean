import ObjcLowering.Proofs.Hierarchy.Settled

/-! What making accessors does to the methods of a class. -/

namespace ObjcLowering.Properties

open List

def Extended (xs ys : List Method) : Prop :=
  ∃ new, ys = xs ++ new ∧ (∀ x ∈ new, x.isClassMethod = false) ∧ (new.map (·.selector)).Nodup ∧
    (∀ x ∈ new, ∀ y ∈ xs, y.selector ≠ x.selector) ∧ ∀ x ∈ new, ∃ key, x.selector.asKey = .ok key

theorem Extended.refl (xs : List Method) : Extended xs xs := ⟨[], by simp⟩

theorem Extended.trans (h : Extended xs ys) (h' : Extended ys zs) : Extended xs zs := by
  obtain ⟨new, rfl, hkind, hnodup, hfresh, hkeys⟩ := h
  obtain ⟨more, rfl, hkind', hnodup', hfresh', hkeys'⟩ := h'
  refine ⟨new ++ more, append_assoc .., ?_, ?_, ?_, ?_⟩
  · exact forall_mem_append.mpr ⟨hkind, hkind'⟩
  · rw [map_append, nodup_append]
    refine ⟨hnodup, hnodup', fun s hs t ht => ?_⟩
    obtain ⟨y, hy, rfl⟩ := mem_map.mp hs
    obtain ⟨x, hx, rfl⟩ := mem_map.mp ht
    exact hfresh' x hx y (mem_append_right _ hy)
  · exact forall_mem_append.mpr
      ⟨hfresh, fun x hx y hy => hfresh' x hx y (mem_append_left _ hy)⟩
  · exact forall_mem_append.mpr ⟨hkeys, hkeys'⟩

theorem Extended.mem (h : Extended xs ys) (hx : x ∈ xs) : x ∈ ys := by
  obtain ⟨new, rfl, -⟩ := h
  exact mem_append_left _ hx

theorem Extended.mem_instance_iff (h : Extended xs ys) (hs : ∃ y ∈ ys, y.selector = s) :
    s ∈ selectorsOf false ys ↔ s ∈ selectorsOf false xs ∨ ∀ y ∈ xs, y.selector ≠ s := by
  obtain ⟨new, rfl, hkind, -, hfresh, -⟩ := h
  simp only [mem_selectorsOf, mem_append] at hs ⊢
  constructor
  · rintro ⟨y, hy | hy, hinstance, rfl⟩
    · exact .inl ⟨y, hy, hinstance, rfl⟩
    · exact .inr (hfresh y hy)
  · rintro (⟨y, hy, hinstance, rfl⟩ | hfree)
    · exact ⟨y, .inl hy, hinstance, rfl⟩
    · obtain ⟨y, hy | hy, hselector⟩ := hs
      · exact absurd hselector (hfree y hy)
      · exact ⟨y, .inr hy, hkind y hy, hselector⟩

def Known (methods : List Method) (x : Method) : Prop :=
  (∃ key, x.selector.asKey = .ok key) ∧ ∃ y ∈ methods, y.selector = x.selector

theorem Known.mono (h : Known xs x) (hxs : Extended xs ys) : Known ys x := by
  obtain ⟨hkey, y, hy, hselector⟩ := h
  exact ⟨hkey, y, hxs.mem hy, hselector⟩

theorem addMissing_of_known (h : Known xs x) : addMissing xs x = .ok xs := by
  obtain ⟨⟨key, hkey⟩, y, hy, hselector⟩ := h
  have hany : (xs.any fun y => y.selector == key) = true := by
    rw [asKey_eq_ok hkey]
    exact any_eq_true.mpr ⟨y, hy, by simp [hselector]⟩
  rw [addMissing, hkey]
  simp [bind, Except.bind, pure, Except.pure, hany]

theorem addMissing_spec (hx : x.isClassMethod = false) (h : addMissing xs x = .ok ys) :
    Extended xs ys ∧ Known ys x := by
  have hys := addMissing_eq_ok h
  obtain ⟨key, hkey, -⟩ := bind_eq_ok.mp h
  split at hys
  · next hmem =>
    subst hys
    exact ⟨.refl ys, ⟨key, hkey⟩, hmem⟩
  · next hmem =>
    subst hys
    refine ⟨⟨[x], rfl, by simpa using hx, by simp, ?_, by simp [hkey]⟩, ⟨key, hkey⟩, x, by simp, rfl⟩
    intro y hy z hz hselector
    rw [mem_singleton.mp hy] at hselector
    exact hmem ⟨z, hz, hselector⟩

structure Served (methods : List Method) (p : Property) : Prop where
  serial : p.serial.isSome = true
  ivar : p.ivar.isSome = true
  getter : Known methods (getter p)
  setter : p.isReadonly.holds = false → ∃ s, setterOf p = .ok s ∧ Known methods (setter p s)

theorem Served.mono (h : Served xs p) (hxs : Extended xs ys) : Served ys p :=
  ⟨h.serial, h.ivar, h.getter.mono hxs, fun hwrite =>
    (h.setter hwrite).imp fun _ hs => ⟨hs.1, hs.2.mono hxs⟩⟩

theorem Served.exists_selector (h : Served xs p) (hs : s ∈ accessorSelectors p) :
    ∃ y ∈ xs, y.selector = s := by
  unfold accessorSelectors at hs
  split at hs
  · rw [mem_singleton.mp hs]
    exact h.getter.2
  · next hwrite =>
    obtain ⟨t, ht, hknown⟩ := h.setter (by simpa using hwrite)
    rw [ht] at hs
    simp only [Except.toOption, Option.toList, mem_cons, not_mem_nil, or_false] at hs
    obtain rfl | rfl := hs
    · exact h.getter.2
    · exact hknown.2

theorem synthesizeProperty_of_served (h : Served c.methods p) : synthesizeProperty (c, warnings) p =
      .ok ({ c with properties := c.properties ++ [p] }, warnings) := by
  obtain ⟨ivar, hivar⟩ := Option.isSome_iff_exists.mp h.ivar
  have hsame : { p with ivar := some ivar } = p := by rw [← hivar]
  have hknown : ivarOf c p = .ok (ivar, []) := by
    rw [ivarOf, hivar]
    rfl
  simp only [synthesizeProperty, hknown, bind, Except.bind, hsame, addMissing_of_known h.getter]
  split
  · simp [pure, Except.pure]
  · next hwrite =>
    obtain ⟨s, hs, hsetter⟩ := h.setter (by simpa using hwrite)
    simp [hs, addMissing_of_known hsetter, pure, Except.pure]

theorem synthesizeProperty_spec (hp : p.serial.isSome = true) (h : synthesizeProperty acc p = .ok acc') :
    Extended acc.1.methods acc'.1.methods ∧ acc'.1.ivars = acc.1.ivars ∧
      ∃ q, acc'.1.properties = acc.1.properties ++ [q] ∧ accessorSelectors q = accessorSelectors p ∧
        Served acc'.1.methods q := by
  obtain ⟨⟨ivar, extra⟩, -, h⟩ := bind_eq_ok.mp h
  obtain ⟨methods, hgetter, h⟩ := bind_eq_ok.mp h
  obtain ⟨hextended, hknown⟩ := addMissing_spec rfl hgetter
  dsimp only at h
  split at h
  · next hreadonly =>
    cases h
    exact ⟨hextended, rfl, _, rfl, rfl, hp, rfl, hknown, fun hwrite => absurd hreadonly (by simp [hwrite])⟩
  · obtain ⟨s, hs, h⟩ := bind_eq_ok.mp h
    obtain ⟨methods', hsetter, h⟩ := bind_eq_ok.mp h
    obtain ⟨hextended', hknown'⟩ := addMissing_spec rfl hsetter
    cases h
    exact ⟨hextended.trans hextended', rfl, _, rfl, rfl, hp, rfl, hknown.mono hextended',
      fun _ => ⟨s, hs, hknown'⟩⟩

theorem foldlM_of_served {ps : List Property} (h : ∀ p ∈ ps, Served c.methods p) :
    ps.foldlM synthesizeProperty (c, warnings) =
      .ok ({ c with properties := c.properties ++ ps }, warnings) := by
  induction ps generalizing c with
  | nil => simp [pure, Except.pure]
  | cons p ps ih =>
    rw [foldlM_cons_eq_ok]
    refine ⟨_, synthesizeProperty_of_served (h p (.head _)), ?_⟩
    rw [ih (c := { c with properties := c.properties ++ [p] }) fun q hq => h q (.tail _ hq)]
    simp

theorem foldlM_spec {ps : List Property}
    (hps : ∀ p ∈ ps, p.serial.isSome = true) (hserved : ∀ p ∈ acc.1.properties, Served acc.1.methods p)
    (h : ps.foldlM synthesizeProperty acc = .ok acc') :
    Extended acc.1.methods acc'.1.methods ∧ acc'.1.ivars = acc.1.ivars ∧
      acc'.1.accessors = acc.1.accessors ++ ps.flatMap accessorSelectors ∧
      ∀ p ∈ acc'.1.properties, Served acc'.1.methods p := by
  induction ps generalizing acc with
  | nil =>
    cases h
    exact ⟨.refl _, rfl, by simp, hserved⟩
  | cons p ps ih =>
    obtain ⟨next, hnext, hrest⟩ := foldlM_cons_eq_ok.mp h
    obtain ⟨hextended, hivars, q, hq, hsame, hservedq⟩ := synthesizeProperty_spec (hps p (.head _)) hnext
    obtain ⟨hextended', hivars', haccessors, hall⟩ := ih (fun r hr => hps r (.tail _ hr)) (by
      rw [hq]
      exact forall_mem_append.mpr
        ⟨fun r hr => (hserved r hr).mono hextended, by simpa using hservedq⟩) hrest
    refine ⟨hextended.trans hextended', hivars'.trans hivars, ?_, hall⟩
    rw [haccessors, ClassDecl.accessors, hq, ClassDecl.accessors]
    simp [hsame]

theorem isSome_serial_numberFrom (next : Nat) (ps : List Property) :
    ∀ p ∈ numberFrom next ps, p.serial.isSome = true := by
  induction ps generalizing next with
  | nil => simp [numberFrom]
  | cons p ps ih =>
    rw [numberFrom]
    split
    · next hserial => exact forall_mem_cons.mpr ⟨hserial, ih _⟩
    · exact forall_mem_cons.mpr ⟨rfl, ih _⟩

theorem numberFrom_of_serial (h : ∀ p ∈ ps, p.serial.isSome = true) : numberFrom n ps = ps := by
  induction ps with
  | nil => rfl
  | cons p ps ih =>
    rw [numberFrom, if_pos (h p (.head _)), ih fun q hq => h q (.tail _ hq)]

theorem forM_asKey {f : α → Name} {as : List α} :
    (as.forM fun a => discard (f a).asKey) = (.ok () : Except Fault Unit) ↔
      ∀ a ∈ as, ∃ key, (f a).asKey = .ok key := by
  rw [forM_eq_forM]
  induction as with
  | nil => simp [pure, Except.pure]
  | cons a as ih =>
    have hhead : ∀ e : Except Fault Json, discard e = .ok () ↔ ∃ key, e = .ok key := by
      intro e
      cases e <;> simp [discard, Functor.discard, Functor.mapConst, Except.map]
    rw [forM_cons, bind_eq_ok, forall_mem_cons, ← ih, ← hhead]
    exact ⟨fun ⟨_, ha, has⟩ => ⟨ha, has⟩, fun ⟨ha, has⟩ => ⟨(), ha, has⟩⟩

structure Finished (c : ClassDecl) : Prop where
  served : ∀ p ∈ c.properties, Served c.methods p
  fixed : synthesizeClass c = .ok (c, [])

theorem finished_of_withAccessors (h : WithAccessors c c') :
    Extended c.methods c'.methods ∧ c'.accessors = c.accessors ∧ Finished c' := by
  obtain ⟨next, warnings, h⟩ := h
  obtain ⟨hextended, hivars, haccessors, hserved⟩ :=
    foldlM_spec (isSome_serial_numberFrom next _) (by simp) (synthesizeClass_eq_ok h)
  obtain ⟨⟨⟩, hmethods, h⟩ := bind_eq_ok.mp h
  obtain ⟨⟨⟩, hnames, -⟩ := bind_eq_ok.mp h
  refine ⟨hextended, haccessors.trans (accessors_numberFrom next _), hserved, ?_⟩
  have hmethods' : (c'.methods.forM fun x => discard x.selector.asKey) = (.ok () : Except Fault Unit) := by
    obtain ⟨new, hnew, -, -, -, hkeys⟩ := hextended
    rw [hnew]
    exact forM_asKey.mpr (forall_mem_append.mpr ⟨forM_asKey.mp hmethods, hkeys⟩)
  have hnames' : (c'.ivars.forM fun v => discard v.name.asKey) = (.ok () : Except Fault Unit) := by
    rw [hivars]
    exact hnames
  rw [synthesizeClass, hmethods', hnames']
  exact foldlM_of_served (c := { c' with properties := [] }) hserved

theorem numberClasses_of_finished
    (h : ∀ e ∈ entries, Finished e.2) : numberClasses n entries = entries := by
  induction entries generalizing n with
  | nil => rfl
  | cons e entries ih =>
    have hserial : numberFrom n e.2.properties = e.2.properties :=
      numberFrom_of_serial fun p hp => ((h e (.head _)).served p hp).serial
    rw [numberClasses, hserial, ih fun e he => h e (.tail _ he)]

theorem synthesize_of_finished (h : ∀ e ∈ m.classes.entries, Finished e.2) : synthesize m = .ok m := by
  have hnumber : number m = m := by rw [number, numberClasses_of_finished h]
  have hquiet : (m.classes.entries.map fun e => (e, ([] : List String))).flatMap (·.2) = [] := by
    rw [flatMap_map]
    simp
  rw [synthesize, hnumber]
  dsimp only
  rw [mapM_of_forall (g := fun e => (e, [])) fun e he => by rw [(h e he).fixed]; rfl]
  simp [bind, Except.bind, pure, Except.pure, Function.comp_def, hquiet]

/-- Making accessors once is enough: a second time changes nothing. The methods of a class stay where
they are, new ones have new selectors, and an accessor is there for the instances unless its selector
was taken by class methods alone. -/
theorem accessors_made_once (m m' : Module) (h : synthesize m = .ok m') :
    synthesize m' = .ok m' ∧
    Forall₂ (fun e e' => e'.1 = e.1 ∧ Extended e.2.methods e'.2.methods ∧
        e'.2.accessors = e.2.accessors ∧ ∀ s ∈ e.2.accessors,
          (s ∈ selectorsOf false e'.2.methods ↔
            s ∈ selectorsOf false e.2.methods ∨ ∀ y ∈ e.2.methods, y.selector ≠ s))
      m.classes.entries m'.classes.entries := by
  have hentries := forall₂_synthesize h
  constructor
  · exact synthesize_of_finished (forall_of_forall₂ (P := fun _ => True) hentries
      (fun e e' he _ => (finished_of_withAccessors he.2).2.2) fun _ _ => trivial)
  · refine hentries.imp fun e e' he => ?_
    obtain ⟨hextended, haccessors, hfinished⟩ := finished_of_withAccessors he.2
    refine ⟨he.1, hextended, haccessors, fun s hs => hextended.mem_instance_iff ?_⟩
    rw [← haccessors] at hs
    obtain ⟨p, hp, hsp⟩ := mem_flatMap.mp hs
    exact (hfinished.served p hp).exists_selector hsp

def ticker : Module :=
  { classes := ⟨[("Ticker", {
      name := "Ticker"
      methods := [{ selector := "count", returnType := ⟨"int"⟩, isClassMethod := true }]
      properties := [{ name := "count", type := ⟨"int"⟩ }] })]⟩ }

theorem ticker_made_once : ∃ m', synthesize ticker = .ok m' ∧ synthesize m' = .ok m' := by
  obtain ⟨m', h, -⟩ : ∃ m', synthesize ticker = .ok m' ∧ m'.errors = [] :=
    toOption_map_eq_some.mp (by decide +kernel)
  exact ⟨m', h, (accessors_made_once ticker m' h).1⟩

theorem ticker_without_getter :
    ((synthesize ticker).toOption.map fun m' =>
      m'.classes.values.map fun c => (c.accessors, selectorsOf false c.methods)) =
      some [([.text "count", .text "setCount:"], [.text "setCount:"])] := by
  decide +kernel

end ObjcLowering.Properties
