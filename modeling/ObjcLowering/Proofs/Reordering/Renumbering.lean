import Mathlib.Logic.Relator
import ObjcLowering.Module.Complete
import ObjcLowering.Proofs.Reordering.Matching

/-!
The numbers that tell properties apart depend on the order of the classes, but are only compared within
one class.
-/

namespace ObjcLowering

open List

section

variable (ρ : Nat → Nat → Prop)

def Property.AlikeUnder (p q : Property) : Prop :=
  ∃ serial, Option.Rel ρ p.serial serial ∧ q = { p with serial }

def Method.AlikeUnder (x y : Method) : Prop :=
  ∃ synthesized, Option.Rel (Property.AlikeUnder ρ) x.synthesized synthesized ∧ y = { x with synthesized }

def ClassDecl.AlikeUnder (c d : ClassDecl) : Prop :=
  ∃ properties methods, Forall₂ (Property.AlikeUnder ρ) c.properties properties ∧
    Forall₂ (Method.AlikeUnder ρ) c.methods methods ∧ d = { c with properties, methods }

end

/-- The classes are the same but for the numbers of their properties, which correspond one to one. -/
def Alike (c d : ClassDecl) : Prop := ∃ ρ, Relator.BiUnique ρ ∧ c.AlikeUnder ρ d

def Property.unnumbered (p : Property) : Property := { p with serial := none }

def Method.unnumbered (x : Method) : Method :=
  { x with synthesized := x.synthesized.map Property.unnumbered }

def ClassDecl.unnumbered (c : ClassDecl) : ClassDecl :=
  { c with
    properties := c.properties.map Property.unnumbered
    methods := c.methods.map Method.unnumbered }

section

variable {p q : Property} {x y : Method} {c d : ClassDecl}

theorem Property.AlikeUnder.unnumbered_eq (h : p.AlikeUnder ρ q) : p.unnumbered = q.unnumbered := by
  obtain ⟨serial, -, rfl⟩ := h
  rfl

theorem Property.AlikeUnder.name_eq (h : p.AlikeUnder ρ q) : p.name = q.name := by
  obtain ⟨serial, -, rfl⟩ := h
  rfl

theorem Property.AlikeUnder.type_eq (h : p.AlikeUnder ρ q) : p.type = q.type := by
  obtain ⟨serial, -, rfl⟩ := h
  rfl

theorem Method.AlikeUnder.unnumbered_eq (h : x.AlikeUnder ρ y) : x.unnumbered = y.unnumbered := by
  obtain ⟨synthesized, hsynthesized, rfl⟩ := h
  unfold Method.unnumbered
  rw [map_eq_of_rel hsynthesized fun _ _ h => h.unnumbered_eq]

theorem Method.AlikeUnder.selector_eq (h : x.AlikeUnder ρ y) : x.selector = y.selector := by
  obtain ⟨synthesized, -, rfl⟩ := h
  rfl

theorem ClassDecl.AlikeUnder.unnumbered_eq (h : c.AlikeUnder ρ d) : c.unnumbered = d.unnumbered := by
  obtain ⟨properties, methods, hproperties, hmethods, rfl⟩ := h
  unfold ClassDecl.unnumbered
  rw [map_eq_of_forall₂ hproperties fun _ _ h => h.unnumbered_eq,
    map_eq_of_forall₂ hmethods fun _ _ h => h.unnumbered_eq]

theorem Alike.unnumbered_eq (h : Alike c d) : c.unnumbered = d.unnumbered := by
  obtain ⟨ρ, -, h⟩ := h
  exact h.unnumbered_eq

theorem Alike.view_eq (h : Alike c d) (view : ClassDecl → β) : view c.unnumbered = view d.unnumbered :=
  congrArg view h.unnumbered_eq

theorem Alike.map_methods_eq (h : Alike c d) (view : Method → β)
    (hview : ∀ x, view x.unnumbered = view x) : c.methods.map view = d.methods.map view := by
  have hmethods := congrArg (map view) (h.view_eq ClassDecl.methods)
  simpa only [ClassDecl.unnumbered, map_map, Function.comp_def, hview] using hmethods

end

theorem Property.AlikeUnder.refl {p : Property} (hρ : ∀ k, p.serial = some k → ρ k k) : p.AlikeUnder ρ p := by
  refine ⟨p.serial, ?_, rfl⟩
  cases hk : p.serial with
  | none => exact .none
  | some k => exact .some (hρ k hk)

theorem Method.AlikeUnder.refl {x : Method}
    (hρ : ∀ p, x.synthesized = some p → ∀ k, p.serial = some k → ρ k k) : x.AlikeUnder ρ x := by
  refine ⟨x.synthesized, ?_, rfl⟩
  cases hp : x.synthesized with
  | none => exact .none
  | some p => exact .some (.refl (hρ p hp))

namespace Properties

def numbered (o : Nat) (c : ClassDecl) : ClassDecl :=
  { c with properties := numberFrom o c.properties }

def Shifted (n o o' k l : Nat) : Prop := (k < n ∧ l = k) ∨ ∃ i, k = o + i ∧ l = o' + i

theorem shifted_biUnique (ho : n ≤ o) (ho' : n ≤ o') : Relator.BiUnique (Shifted n o o') := by
  constructor
  · rintro k l j (⟨hk, rfl⟩ | ⟨i, rfl, rfl⟩) (⟨hl, hkl⟩ | ⟨i', rfl, hkl⟩) <;> omega
  · rintro k l j (⟨hk, rfl⟩ | ⟨i, rfl, rfl⟩) (⟨hl, hkl⟩ | ⟨i', hkl, rfl⟩) <;> omega

theorem alike_numberFrom (hn : ∀ p ∈ props, ∀ k, p.serial = some k → k < n) (i : Nat) :
    Forall₂ (Property.AlikeUnder (Shifted n o o')) (numberFrom (o + i) props)
      (numberFrom (o' + i) props) := by
  induction props generalizing i with
  | nil => exact .nil
  | cons p props ih =>
    have hrest := fun i => ih (fun q hq => hn q (.tail _ hq)) i
    unfold numberFrom
    split
    · exact .cons (.refl fun k hk => .inl ⟨hn p (.head _) k hk, rfl⟩) (hrest i)
    · exact .cons ⟨some (o' + i), .some (.inr ⟨i, rfl, rfl⟩), rfl⟩ (hrest (i + 1))

def serialsOf (c : ClassDecl) : List Nat := c.allProperties.filterMap (·.serial)

theorem alike_numbered (hn : ∀ k ∈ serialsOf c, k < n) (ho : n ≤ o) (ho' : n ≤ o') :
    Alike (numbered o c) (numbered o' c) := by
  have hbelow : ∀ p ∈ c.allProperties, ∀ k, p.serial = some k → k < n := fun p hp k hk =>
    hn k (mem_filterMap.mpr ⟨p, hp, hk⟩)
  refine ⟨Shifted n o o', shifted_biUnique ho ho', numberFrom o' c.properties, c.methods, ?_, ?_, rfl⟩
  · exact alike_numberFrom (fun p hp => hbelow p (mem_append_left _ hp)) 0
  · refine forall₂_same.mpr fun x hx => .refl fun p hp k hk => .inl ⟨hbelow p ?_ k hk, rfl⟩
    exact mem_append_right _ (mem_filterMap.mpr ⟨x, hx, hp⟩)

theorem forall₂_numberClasses_numbered (next : Nat) (entries : List (Name × ClassDecl)) :
    Forall₂ (fun e r => r.1 = e.1 ∧ ∃ o, next ≤ o ∧ r.2 = numbered o e.2) entries
      (numberClasses next entries) := by
  induction entries generalizing next with
  | nil => exact .nil
  | cons e entries ih =>
    refine .cons ⟨rfl, next, Nat.le_refl _, rfl⟩ ((ih _).imp fun d r h => ?_)
    obtain ⟨hname, o, ho, hr⟩ := h
    exact ⟨hname, o, by omega, hr⟩

theorem matches_numberClasses
    (hperm : entries.Perm entries') (hn : ∀ e ∈ entries, ∀ k ∈ serialsOf e.2, k < n) :
    Matches (Table.EntryRel Alike) (numberClasses n entries) (numberClasses n entries') := by
  obtain ⟨zs, hzs, hrest⟩ := perm_comp_forall₂ hperm (forall₂_numberClasses_numbered n entries')
  refine ⟨zs, ?_, hrest⟩
  clear hrest hperm
  -- both results come from `entries`, element by element
  have hleft := forall₂_numberClasses_numbered n entries
  generalize numberClasses n entries = rs at hleft
  induction entries generalizing rs zs with
  | nil =>
    cases hleft
    cases hzs
    exact .nil
  | cons e entries ih =>
    obtain ⟨r, rs, ⟨hname, o, ho, hr⟩, hrs, rfl⟩ := forall₂_cons_left_iff.mp hleft
    obtain ⟨z, zs, ⟨hname', o', ho', hz⟩, hrest, rfl⟩ := forall₂_cons_left_iff.mp hzs
    refine .cons ⟨hname'.trans hname.symm, ?_⟩ (ih (fun d hd => hn d (.tail _ hd)) zs hrest rs hrs)
    rw [hr, hz]
    exact alike_numbered (hn e (.head _)) ho ho'

theorem agree_addMissing (hmethods : Forall₂ (Method.AlikeUnder ρ) xs ys) (hxy : x.AlikeUnder ρ y) :
    Agree (Forall₂ (Method.AlikeUnder ρ)) (addMissing xs x) (addMissing ys y) := by
  have hselectors := map_eq_of_forall₂ (f := (·.selector)) (g := (·.selector)) hmethods
    fun _ _ h => h.selector_eq
  have hany : ∀ selector : Name, (xs.any fun m => m.selector == selector) =
      ys.any fun m => m.selector == selector := by
    intro selector
    have hviews := congrArg (any · (· == selector)) hselectors
    simpa only [any_map, Function.comp_def] using hviews
  unfold addMissing
  refine agree_bind (R := (· = ·)) (.of_eq (congrArg Json.asKey hxy.selector_eq) fun _ => rfl) ?_
  rintro selector _ rfl
  refine agree_pure ?_
  rw [hany]
  split
  · exact hmethods
  · exact rel_append hmethods (.cons hxy .nil)

def SameProgress (ρ : Nat → Nat → Prop) (acc acc' : ClassDecl × List String) : Prop :=
  acc.1.AlikeUnder ρ acc'.1 ∧ acc'.2 = acc.2

theorem agree_synthesizeProperty (hacc : SameProgress ρ acc acc') (hpq : p.AlikeUnder ρ q) :
    Agree (SameProgress ρ) (synthesizeProperty acc p) (synthesizeProperty acc' q) := by
  obtain ⟨cls, warnings⟩ := acc
  obtain ⟨cls', warnings'⟩ := acc'
  obtain ⟨⟨properties, methods, hproperties, hmethods, hcls⟩, hwarnings⟩ := hacc
  cases hcls
  cases hwarnings
  obtain ⟨serial, hserial, rfl⟩ := hpq
  unfold synthesizeProperty
  refine agree_bind (R := (· = ·)) (.of_eq rfl fun _ => rfl) ?_
  rintro ⟨ivar, extra⟩ _ rfl
  dsimp only
  have hmade : Option.Rel (Property.AlikeUnder ρ) (some { p with ivar := some ivar })
      (some { p with ivar := some ivar, serial }) := .some ⟨serial, hserial, rfl⟩
  refine agree_bind (agree_addMissing hmethods ⟨_, hmade, rfl⟩) fun ms ms' hms => ?_
  have hdone : ∀ xs ys, Forall₂ (Method.AlikeUnder ρ) xs ys →
      SameProgress ρ
        ({ cls with
            methods := xs
            properties := cls.properties ++ [{ p with ivar := some ivar }] }, warnings ++ extra)
        ({ cls with
            methods := ys
            properties := properties ++ [{ p with ivar := some ivar, serial }] }, warnings ++ extra) :=
    fun xs ys hxs => ⟨⟨_, _, rel_append hproperties (.cons ⟨serial, hserial, rfl⟩ .nil), hxs, rfl⟩, rfl⟩
  split
  · exact agree_bind (agree_pure hms) fun xs ys hxs => agree_pure (hdone xs ys hxs)
  · refine agree_bind (R := (· = ·)) (.of_eq rfl fun _ => rfl) ?_
    rintro selector _ rfl
    exact agree_bind (agree_addMissing hms ⟨_, hmade, rfl⟩) fun xs ys hxs => agree_pure (hdone xs ys hxs)

theorem agree_synthesizeClass (hcd : Alike c d) :
    Agree (fun r r' => Alike r.1 r'.1 ∧ r'.2 = r.2) (synthesizeClass c) (synthesizeClass d) := by
  obtain ⟨ρ, hρ, properties, methods, hproperties, hmethods, rfl⟩ := hcd
  have hkeys : ∀ x y : Method, x.AlikeUnder ρ y →
      Agree (fun _ _ => True) (discard x.selector.asKey) (discard y.selector.asKey) := by
    intro x y hxy
    rw [hxy.selector_eq]
    exact .of_eq rfl fun _ => trivial
  have hempty : SameProgress ρ ({ c with properties := [] }, [])
      ({ c with properties := [], methods }, []) := ⟨⟨[], methods, .nil, hmethods, rfl⟩, rfl⟩
  have hfold := agree_foldlM hproperties hempty fun _ _ _ _ => agree_synthesizeProperty
  unfold synthesizeClass
  refine agree_bind (agree_forM (.of_forall₂ hmethods) hkeys) fun _ _ _ => ?_
  refine agree_bind (R := fun _ _ => True) (.of_eq rfl fun _ => trivial) fun _ _ _ => ?_
  exact hfold.mono fun r r' hr => ⟨⟨ρ, hρ, hr.1⟩, hr.2⟩

end Properties

namespace TypeArguments

variable {ρ : Nat → Nat → Prop} (generics : Table String String)

theorem beq_eq_of_rel (hρ : Relator.BiUnique ρ) (hj : Option.Rel ρ j j')
    (hk : Option.Rel ρ k k') : (j == k) = (j' == k') := by
  cases hj with
  | none =>
    cases hk with
    | none => rfl
    | some _ => rfl
  | some hj =>
    cases hk with
    | none => rfl
    | some hk =>
      rw [Bool.eq_iff_iff, beq_iff_eq, beq_iff_eq, Option.some_inj, Option.some_inj]
      exact ⟨fun h => hρ.2 hj (h ▸ hk), fun h => hρ.1 hj (h ▸ hk)⟩

theorem isSome_eq_of_rel (hj : Option.Rel ρ j j') : j.isSome = j'.isSome := by
  cases hj with
  | none => rfl
  | some _ => rfl

theorem propertyKeys_eq (hρ : Relator.BiUnique ρ) (hcd : c.AlikeUnder ρ d) (hpq : p.AlikeUnder ρ q) :
    propertyKeys c p = propertyKeys d q := by
  obtain ⟨properties, methods, hproperties, hmethods, rfl⟩ := hcd
  obtain ⟨serial, hserial, rfl⟩ := hpq
  -- the comparison of numbers gives the same answer on both sides
  have hsame : ∀ r s : Property, r.AlikeUnder ρ s →
      (p.serial.isSome && r.serial == p.serial) = (serial.isSome && s.serial == serial) := by
    rintro r _ ⟨k, hk, rfl⟩
    rw [isSome_eq_of_rel hserial, beq_eq_of_rel hρ hk hserial]
  have hsynthesized : ∀ x y : Method, x.AlikeUnder ρ y →
      (x.synthesized.any fun r => p.serial.isSome && r.serial == p.serial) =
        y.synthesized.any fun s => serial.isSome && s.serial == serial := by
    rintro x _ ⟨synthesized, hrel, rfl⟩
    have hmap := map_eq_of_rel hrel hsame
    simpa only [Option.any_map, Function.comp_def] using congrArg (Option.any fun b => b) hmap
  unfold propertyKeys
  dsimp only
  congr 1
  · refine map_eq_of_forall₂ (rel_filter (fun r s hrs => ?_) hproperties) fun r s hrs => ?_
    · exact Bool.eq_iff_iff.mp (hsame r s hrs)
    · exact hrs.name_eq
  · refine flatMap_eq_of_forall₂ (rel_filter (fun x y hxy => ?_) hmethods) fun x y hxy => ?_
    · exact Bool.eq_iff_iff.mp (hsynthesized x y hxy)
    · obtain ⟨_, -, rfl⟩ := hxy
      rfl

theorem alike_enrichProperty (hρ : Relator.BiUnique ρ) (hcd : c.AlikeUnder ρ d)
    (hpq : p.AlikeUnder ρ q) :
    (enrichProperty generics c p).AlikeUnder ρ (enrichProperty generics d q) := by
  have hkeys := propertyKeys_eq hρ hcd hpq
  obtain ⟨serial, hserial, rfl⟩ := hpq
  refine ⟨serial, hserial, ?_⟩
  unfold enrichProperty
  rw [isSome_eq_of_rel hserial, hkeys]

theorem alike_enrichMethod (hρ : Relator.BiUnique ρ) (hcd : c.AlikeUnder ρ d) (hxy : x.AlikeUnder ρ y) :
    (enrichMethod generics c x).AlikeUnder ρ (enrichMethod generics d y) := by
  obtain ⟨synthesized, hsynthesized, rfl⟩ := hxy
  unfold enrichMethod
  cases hx : x.synthesized with
  | none =>
    rw [hx] at hsynthesized
    cases hsynthesized
    exact ⟨none, .none, rfl⟩
  | some p =>
    rw [hx] at hsynthesized
    cases hsynthesized with
    | @some _ q hpq =>
      have henriched := alike_enrichProperty generics hρ hcd hpq
      simp only [Option.map_some]
      rw [henriched.type_eq]
      split
      · exact ⟨_, .some henriched, rfl⟩
      · exact ⟨_, .some henriched, rfl⟩

theorem alike_enrichClass (hcd : Alike c d) : Alike (enrichClass generics c) (enrichClass generics d) := by
  obtain ⟨ρ, hρ, hunder⟩ := hcd
  have hmethod := fun x y (hxy : Method.AlikeUnder ρ x y) => alike_enrichMethod generics hρ hunder hxy
  have hproperty := fun p q (hpq : Property.AlikeUnder ρ p q) => alike_enrichProperty generics hρ hunder hpq
  obtain ⟨properties, methods, hproperties, hmethods, rfl⟩ := hunder
  exact ⟨ρ, hρ, _, _, rel_map hproperty hproperties, rel_map hmethod hmethods, rfl⟩

end TypeArguments

end ObjcLowering
