import ObjcLowering.Proofs.Pools.BlockSizes

/-! Forward declarations and the layouts of classes. -/

namespace ObjcLowering.Pools

open Ast Table Option
open List hiding after

def forward (name : String) : Node := .mk { kind := "ObjCInterfaceDecl", name := some (.text name) } []

/-- The second list is the first with forward declarations of known classes put in, at any depth. -/
inductive Announced (known : Name → Prop) : List Node → List Node → Prop
  | nil : Announced known [] []
  | node : Announced known ns ms → Announced known ns' ms' →
      Announced known (.mk a ns :: ns') (.mk a ms :: ms')
  | forward {name : String} {ns ms : List Node} : known name → Announced known ns ms →
      Announced known ns (forward name :: ms)

def withIvars (ds : List (Name × ClassLayout)) : List (Name × ClassLayout) :=
  ds.filter (!·.2.ivarTypes.isEmpty)

def Extends (known : Name → Prop) (xs ys : List (Name × ClassLayout)) : Prop :=
  withIvars ys = withIvars xs ∧ ∀ d ∈ ys, d ∈ xs ∨ known d.1

theorem Extends.refl (xs : List (Name × ClassLayout)) : Extends known xs xs := ⟨rfl, fun _ hd => .inl hd⟩

theorem Extends.append (h : Extends known xs ys)
    (h' : Extends known xs' ys') : Extends known (xs ++ xs') (ys ++ ys') := by
  refine ⟨?_, fun d hd => ?_⟩
  · have happend (xs ys) : withIvars (xs ++ ys) = withIvars xs ++ withIvars ys := filter_append ..
    rw [happend, happend, h.1, h'.1]
  · obtain hd | hd := mem_append.mp hd
    · exact (h.2 d hd).imp_left (mem_append_left _)
    · exact (h'.2 d hd).imp_left (mem_append_right _)

theorem ivarType?_mk (a : Attrs) (ns ms : List Node) : ivarType? (.mk a ms) = ivarType? (.mk a ns) := by
  unfold ivarType? Node.check
  cases h : a.isAlien <;> simp only [Node.attrs, h] <;> rfl

theorem filterMapM_ivarType?_announced (h : Announced known ns ms) :
    ms.filterMapM ivarType? = ns.filterMapM ivarType? := by
  induction h with
  | nil => rfl
  | node _ _ _ ih => rw [filterMapM_cons, filterMapM_cons, ih, ivarType?_mk]
  | forward _ _ ih => rw [filterMapM_cons, ih]; rfl

theorem ownInterface_announced (h : Announced known ns ms) :
    ownInterface (.mk a ms) = ownInterface (.mk a ns) := by
  unfold ownInterface layoutOf
  rw [Node.inner_mk, filterMapM_ivarType?_announced h]
  rfl

theorem interfaces_forward (name : String) :
    interfaces (forward name) = .ok (if name = "" then [] else [(.text name, ⟨"", []⟩)]) := by
  by_cases h : name = ""
  · rw [h]
    rfl
  · rw [if_neg h]
    simp [interfaces, forward, Json.holds, h]
    rfl

theorem interfaces_announced (h : Announced known ns ms)
    (ih : ∀ {xs}, interfacesList ns = .ok xs → ∃ ys, interfacesList ms = .ok ys ∧ Extends known xs ys)
    (hxs : interfaces (.mk a ns) = .ok xs) : ∃ ys, interfaces (.mk a ms) = .ok ys ∧ Extends known xs ys := by
  rw [interfaces] at hxs ⊢
  rw [ownInterface_announced h]
  cases halien : a.isAlien with
  | true =>
    rw [halien] at hxs
    cases hxs
  | false =>
    rw [halien] at hxs
    cases hend : a.kind = "ObjCInterfaceDecl" && !(a.name.getD "").holds with
    | true =>
      rw [hend] at hxs
      exact ⟨xs, hxs, .refl xs⟩
    | false =>
      rw [hend] at hxs
      obtain ⟨own, hown, hxs⟩ := bind_eq_ok.mp hxs
      obtain ⟨rest, hrest, hxs⟩ := bind_eq_ok.mp hxs
      obtain rfl := pure_eq_ok.mp hxs
      obtain ⟨ys, hys, hextends⟩ := ih hrest
      refine ⟨own ++ ys, ?_, .append (.refl own) hextends⟩
      rw [hown, hys]
      rfl

theorem interfacesList_announced (h : Announced known ns ms) (hxs : interfacesList ns = .ok xs) :
    ∃ ys, interfacesList ms = .ok ys ∧ Extends known xs ys := by
  induction h generalizing xs with
  | nil => exact ⟨xs, hxs, .refl xs⟩
  | node h _ ih ih' =>
    obtain ⟨own, hown, hxs⟩ := bind_eq_ok.mp hxs
    obtain ⟨rest, hrest, hxs⟩ := bind_eq_ok.mp hxs
    obtain rfl := pure_eq_ok.mp hxs
    obtain ⟨own', hown', hextends⟩ := interfaces_announced h ih hown
    obtain ⟨rest', hrest', hextends'⟩ := ih' hrest
    exact ⟨own' ++ rest', by rw [interfacesList, hown', hrest']; rfl, hextends.append hextends'⟩
  | @forward name ns ms hname h ih =>
    obtain ⟨ys, hys, hextends⟩ := ih hxs
    refine ⟨_, by rw [interfacesList, interfaces_forward, hys]; rfl, ?_⟩
    split
    · exact hextends
    · have hforward : Extends known [] [⟨name, "", []⟩] := by
        refine ⟨rfl, fun d hd => .inr ?_⟩
        rw [mem_singleton.mp hd]
        exact hname
      exact hforward.append hextends

theorem find?_foldl_addInterface (ds : List (Name × ClassLayout)) (t : Table Name ClassLayout) (name : Name) :
    (ds.foldl addInterface t).find? name =
      ((withIvars ds).reverse.lookup name).or ((t.find? name).or (ds.lookup name)) := by
  induction ds generalizing t with
  | nil => simp [withIvars]
  | cons d ds ih =>
    obtain ⟨key, layout⟩ := d
    have hfilter : withIvars ((key, layout) :: ds) =
        (if layout.ivarTypes.isEmpty then [] else [(key, layout)]) ++ withIvars ds := by
      cases h : layout.ivarTypes.isEmpty <;> simp [withIvars, h]
    rw [foldl_cons, ih, hfilter, reverse_append, lookup_append, Option.or_assoc,
      lookup_cons, addInterface]
    congr 1
    by_cases hname : name = key
    · subst hname
      unfold has
      cases layout.ivarTypes.isEmpty <;> cases hfind : t.find? name <;> simp [hfind]
    · cases layout.ivarTypes.isEmpty <;> cases t.has key <;>
        simp [hname, lookup_cons, beq_false_of_ne hname]

theorem nodup_names_foldl_addInterface (ds : List (Name × ClassLayout))
    (h : t.names.Nodup) : (ds.foldl addInterface t).names.Nodup := by
  induction ds generalizing t with
  | nil => exact h
  | cons d ds ih =>
    rw [foldl_cons, addInterface]
    split
    · exact ih (nodup_names_set h _ _)
    · exact ih h

theorem find?_layouts (ds : List (Name × ClassLayout)) (name : Name) :
    (ds.foldl addInterface {}).find? name = ((withIvars ds).reverse.lookup name).or (ds.lookup name) :=
  find?_foldl_addInterface ds {} name

theorem ivarTypes_eq_nil_iff (h : (ds.foldl addInterface {}).find? name = some layout) :
    layout.ivarTypes = [] ↔ (withIvars ds).reverse.lookup name = none := by
  rw [find?_layouts] at h
  cases hlast : (withIvars ds).reverse.lookup name with
  | none =>
    rw [hlast] at h
    have hmem : (name, layout) ∈ ds := mem_of_find? (t := ⟨ds⟩) h
    have hnone := (find?_eq_none_iff (t := ⟨(withIvars ds).reverse⟩)).mp hlast
    simp [names, withIvars] at hnone
    simpa using hnone layout hmem
  | some last =>
    cases (congrArg (Option.or · _) hlast).symm.trans h
    have hmem := mem_reverse.mp (mem_of_find? (t := ⟨(withIvars ds).reverse⟩) hlast)
    simpa using (mem_filter.mp hmem).2

theorem find?_eq_iff (h : Extends known xs ys)
    (hknown : ∀ name, known name → (xs.foldl addInterface {}).has name = true) :
    (∀ name, (ys.foldl addInterface {}).find? name = (xs.foldl addInterface {}).find? name) ↔
      ∀ name layout, (xs.foldl addInterface {}).find? name = some layout → layout.ivarTypes = [] →
        (ys.lookup name).map (·.superName) = some layout.superName := by
  constructor
  · intro hsame name layout hlayout hempty
    have hafter := (hsame name).trans hlayout
    have hlast := (ivarTypes_eq_nil_iff hafter).mp hempty
    rw [find?_layouts, hlast, none_or] at hafter
    rw [hafter, map_some]
  · intro hfirst name
    cases hlast : (withIvars xs).reverse.lookup name with
    | some last => rw [find?_layouts, find?_layouts, h.1, hlast, some_or, some_or]
    | none =>
      have hafter := find?_layouts ys name
      rw [h.1, hlast, none_or] at hafter
      cases hlayout : (xs.foldl addInterface {}).find? name with
      | some layout =>
        have hempty := (ivarTypes_eq_nil_iff hlayout).mpr hlast
        obtain ⟨layout', hlayout', hsuper⟩ := map_eq_some_iff.mp (hfirst name layout hlayout hempty)
        rw [hlayout'] at hafter
        have hempty' := (ivarTypes_eq_nil_iff hafter).mpr (h.1 ▸ hlast)
        rw [hafter, some_inj]
        cases layout
        cases layout'
        simp_all
      | none =>
        have hbefore := find?_layouts xs name
        rw [hlayout, hlast, none_or] at hbefore
        rw [hafter]
        refine (find?_eq_none_iff (t := ⟨ys⟩)).mpr fun hname => ?_
        obtain ⟨layout, hmem⟩ := mem_names.mp hname
        obtain hmem | hmem := h.2 _ hmem
        · exact (find?_eq_none_iff (t := ⟨xs⟩)).mp hbefore.symm (mem_names.mpr ⟨layout, hmem⟩)
        · have hhas := hknown name hmem
          rw [has, hlayout] at hhas
          cases hhas

theorem instanceSize_congr (h : ∀ name, after.find? name = before.find? name) (fuel : Nat)
    (name : Name) : instanceSize after pointer fuel name = instanceSize before pointer fuel name := by
  induction fuel generalizing name with
  | zero => rfl
  | succ fuel ih =>
    simp only [instanceSize, inheritedPart, has, h, ih]
    cases before.find? name <;> rfl

theorem classSizes_congr (hbefore : before.names.Nodup)
    (hafter : after.names.Nodup) (h : ∀ name, after.find? name = before.find? name)
    (hsizes : classSizes before pointer = .ok sizes) :
    ∃ sizes', classSizes after pointer = .ok sizes' ∧ ∀ name, sizes'.find? name = sizes.find? name := by
  have hmem (name) : name ∈ after.names ↔ name ∈ before.names := by
    rw [← has_iff_mem_names, ← has_iff_mem_names, has, has, h]
  have hlength := ((perm_ext_iff_of_nodup hafter hbefore).mpr hmem).length_eq
  rw [length_names, length_names] at hlength
  have hsame (name) : instanceSize after pointer (after.entries.length + 1) name =
      instanceSize before pointer (before.entries.length + 1) name := by
    rw [hlength, instanceSize_congr h]
  obtain ⟨sizes', hsizes'⟩ : ∃ sizes', classSizes after pointer = .ok sizes' := by
    refine exists_classSizes fun name hname => ?_
    obtain ⟨size, -, hsize⟩ := if_pos ((hmem name).mp hname) ▸ find?_classSizes hsizes name
    exact ⟨size, (hsame name).trans hsize⟩
  refine ⟨sizes', hsizes', fun name => ?_⟩
  have hold := find?_classSizes hsizes name
  have hnew := find?_classSizes hsizes' name
  simp only [hmem, hsame] at hnew
  split at hold
  · next hname =>
    rw [if_pos hname] at hnew
    obtain ⟨size, hfind, hsize⟩ := hold
    obtain ⟨size', hfind', hsize'⟩ := hnew
    cases hsize.symm.trans hsize'
    rw [hfind, hfind']
  · next hname =>
    rw [if_neg hname] at hnew
    rw [hold, hnew]

/-- Forward declarations of declared classes change no layout exactly if every class without variables is
first declared with its superclass; then they change no size either. -/
theorem forward_declarations_harmless_iff (h : Announced known ns ms) (hbefore : classLayouts ns = .ok before)
    (hknown : ∀ name, known name → before.has name = true) :
    ∃ after decls, classLayouts ms = .ok after ∧ interfacesList ms = .ok decls ∧
      ((∀ name, after.find? name = before.find? name) ↔
        ∀ name layout, before.find? name = some layout → layout.ivarTypes = [] →
          (decls.lookup name).map (·.superName) = some layout.superName) ∧
      ((∀ name, after.find? name = before.find? name) → ∀ pointer sizes,
        classSizes before pointer = .ok sizes →
          ∃ sizes', classSizes after pointer = .ok sizes' ∧ ∀ name, sizes'.find? name = sizes.find? name) := by
  obtain ⟨xs, hxs, h'⟩ := bind_eq_ok.mp hbefore
  obtain rfl := pure_eq_ok.mp h'
  obtain ⟨ys, hys, hextends⟩ := interfacesList_announced h hxs
  refine ⟨_, ys, by rw [classLayouts, hys]; rfl, hys, find?_eq_iff hextends hknown,
    fun hsame pointer sizes hsizes => ?_⟩
  exact classSizes_congr (nodup_names_foldl_addInterface xs (t := {}) nodup_nil)
    (nodup_names_foldl_addInterface ys (t := {}) nodup_nil) hsame hsizes

def subclassDecl (ivars : List Node) : Node :=
  .mk { kind := "ObjCInterfaceDecl", name := some "Led", superDecl := .present ⟨some "Base"⟩ } ivars

def pinDecl : Node := .mk { kind := "ObjCIvarDecl", type := .present { qual := some "int" } } []

theorem announced_led_unchanged :
    ∃ after, classLayouts [forward "Led", subclassDecl [pinDecl], forward "Led"] = .ok after ∧
      ∀ name, after.find? name = (⟨[("Led", ⟨"Base", ["int"]⟩)]⟩ : Table Name ClassLayout).find? name := by
  have h : Announced (· = "Led") [subclassDecl [pinDecl]]
      [forward "Led", subclassDecl [pinDecl], forward "Led"] :=
    .forward rfl (.node (.node .nil .nil) (.forward rfl .nil))
  obtain ⟨after, _, hafter, _, hiff, _⟩ := forward_declarations_harmless_iff h rfl
    (fun name hname => by subst hname; rfl)
  refine ⟨after, hafter, hiff.mpr fun name layout hlayout hempty => ?_⟩
  cases mem_singleton.mp (mem_of_find? hlayout)
  cases hempty

theorem announced_first_loses_superclass :
    ((classLayouts [subclassDecl []]).toOption.bind (·.find? "Led")).map (·.superName) = some "Base" ∧
      ((classLayouts [forward "Led", subclassDecl []]).toOption.bind (·.find? "Led")).map (·.superName) =
        some "" := by
  decide +kernel

end ObjcLowering.Pools
