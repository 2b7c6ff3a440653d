import ObjcLowering.Proofs.Hierarchy.Ancestry
import ObjcLowering.Proofs.Lowering.Hoists

/-! Access to the instance variables of other objects. -/

namespace ObjcLowering.Lowering

open Ast Hierarchy List

/-- The variable that objects of a class have under a name, and the nearest class that declares it. -/
def declaredIvar? (m : Module) (cls : ClassDecl) (ivar : Name) : Option (ClassDecl × Ivar) :=
  (m.chain cls).findSome? fun c => (c.ivars.find? fun v => v.name == ivar).map fun v => (c, v)

def Refused (env : Env) (n : Node) : Prop :=
  ∀ expr s, ∃ text message, Yields (lowerIvar expr n) env s text { s with errors := s.errors ++ [message] }

theorem refused_iff (hdecl : n.attrs.decl.get = .ok decl) (hbase : ivarBase? n = .ok (some base)) :
    Refused env n ↔ ∃ p, ivarOwner? env.module (decl.name.getD "") = some p ∧
      mayAccess env.module p.1 p.2 (accessorName env) = false := by
  constructor
  · intro h
    -- A part that fails cannot have been lowered, so the reference was refused.
    obtain ⟨text, message, h⟩ := h (fun _ => throw .unfit) default
    obtain ⟨_, hdecl', h⟩ := yields_liftM_bind.mp (yields_read_bind.mp h)
    cases hdecl.symm.trans hdecl'
    obtain ⟨_, hbase', h⟩ := yields_liftM_bind.mp h
    cases hbase.symm.trans hbase'
    dsimp only at h
    split at h
    · next p hp =>
      obtain ⟨howner, hrefused⟩ := Option.filter_eq_some_iff.mp hp
      exact ⟨_, howner, by simpa using hrefused⟩
    · obtain ⟨_, _, h, -⟩ := yields_bind.mp h
      exact absurd h yields_throw
  · rintro ⟨⟨owner, v⟩, howner, hrefused⟩ expr s
    exact ⟨_, _, yields_read_bind.mpr <| yields_liftM_bind.mpr ⟨_, hdecl, yields_liftM_bind.mpr ⟨_, hbase, by
      dsimp only
      rw [howner, Option.filter_some, if_pos (by simpa using hrefused)]
      exact yields_modify_bind.mpr (yields_pure.mpr ⟨rfl, rfl⟩)⟩⟩⟩

theorem reflTransGen_of_mem_chainFrom (hm : m.Named) (hc : c ∈ m.classes.values)
    (h : d ∈ Module.chainFrom m fuel c) :
    d ∈ m.classes.values ∧ Relation.ReflTransGen (Up m) c.name d.name := by
  induction fuel generalizing c with
  | zero => cases h
  | succ fuel ih =>
    rw [Module.chainFrom] at h
    cases hup : m.parent? c with
    | none =>
      rw [hup] at h
      rw [mem_singleton.mp h]
      exact ⟨hc, .refl⟩
    | some up =>
      rw [hup] at h
      obtain rfl | h := mem_cons.mp h
      · exact ⟨hc, .refl⟩
      · obtain ⟨name, hname, hclass⟩ := Option.bind_eq_some_iff.mp hup
        obtain ⟨hd, hpath⟩ := ih (Module.mem_values_of_class? hclass) h
        rw [hm.name_of_class? hclass] at hpath
        exact ⟨hd, .head (above_eq_some.mpr ⟨c, hm.class?_name hc, hname⟩) hpath⟩

theorem transGen_of_isSubclass (hm : m.Named) (h : isSubclass m a b = true) :
    Relation.TransGen (Up m) a b := by
  unfold isSubclass at h
  split at h
  · next c hc =>
    obtain ⟨d, hd, hup⟩ := any_eq_true.mp h
    obtain ⟨hd, hpath⟩ := reflTransGen_of_mem_chainFrom hm (Module.mem_values_of_class? hc) hd
    rw [hm.name_of_class? hc] at hpath
    exact .tail' hpath (above_eq_some.mpr ⟨d, hm.class?_name hd, by simpa using hup⟩)
  · cases h

theorem mayAccess_outside (hm : m.Named) (hc : c ∈ m.classes.values) (h : m.class? a = none) :
    mayAccess m c v a = true ↔ v.access = "public" := by
  have hne : a ≠ c.name := by
    rintro rfl
    cases (hm.class?_name hc).symm.trans h
  simp [mayAccess, isSubclass, h, hne]

theorem owner_eq_of_mayAccess {v w : Ivar} (hm : m.Named) (hacyclic : ¬ Cyclic m) (hc : c ∈ m.classes.values)
    (hd : d ∈ m.classes.values) (hv : v.access ≠ "public") (hw : w.access ≠ "public")
    (h : ∀ accessor, mayAccess m c v accessor = mayAccess m d w accessor) : c = d := by
  have hself : ∀ {c v}, mayAccess m c v c.name = true := by
    intro c v
    unfold mayAccess
    split <;> simp
  have hbelow : ∀ {c d : ClassDecl} {w : Ivar}, w.access ≠ "public" → mayAccess m d w c.name = true →
      c.name = d.name ∨ Relation.TransGen (Up m) c.name d.name := by
    intro c d w hw h
    simp only [mayAccess, if_neg hw] at h
    split at h
    · exact .inl (by simpa using h)
    · exact (Bool.or_eq_true_iff.mp h).imp (by simp) (transGen_of_isSubclass hm)
  have hname : c.name = d.name := by
    obtain hname | hup := hbelow hw ((h c.name).symm.trans hself)
    · exact hname
    · obtain hname | hup' := hbelow hv ((h d.name).trans hself)
      · exact hname.symm
      · exact absurd ((cyclic_iff hm).mpr ⟨_, hup.trans hup'⟩) hacyclic
  exact Option.some.inj ((hm.class?_name hc).symm.trans (hname ▸ hm.class?_name hd))

theorem ivarOwner?_of_declaredIvar? (hm : m.Named) (hcls : cls ∈ m.classes.values)
    (h : declaredIvar? m cls ivar = some (owner, v)) :
    owner ∈ m.classes.values ∧ (owner.ivars.find? fun v => v.name == ivar) = some v ∧
      ∃ first w, ivarOwner? m ivar = some (first, w) := by
  obtain ⟨c, hc, hv⟩ := exists_of_findSome?_eq_some h
  obtain ⟨_, hv, heq⟩ := Option.map_eq_some_iff.mp hv
  cases heq
  have howner := (reflTransGen_of_mem_chainFrom hm hcls hc).1
  refine ⟨howner, hv, ?_⟩
  cases hfirst : ivarOwner? m ivar with
  | some p => exact ⟨p.1, p.2, rfl⟩
  | none =>
    have hnone := findSome?_eq_none_iff.mp hfirst _ howner
    rw [hv] at hnone
    cases hnone

def methodOf (m : Module) (cls : Name) : Env :=
  { cls := { name := cls }, module := m, root := "", method := some default }

def otherRef (ivar : Name) : Node :=
  .mk { kind := "ObjCIvarRefExpr", decl := .present ⟨some ivar⟩ } [.varRef "other" ""]

/-- Access to a variable of another object is judged by the class of the object, for all who may refer to
it, exactly if that class is the first of the module to declare the name, or if both are public. -/
theorem refused_by_own_class_iff (hm : m.Named) (hacyclic : ¬ Cyclic m)
    (hfree : m.class? "__free_function__" = none) (hcls : cls ∈ m.classes.values)
    (hown : declaredIvar? m cls ivar = some (owner, v)) :
    ∃ first w, ivarOwner? m ivar = some (first, w) ∧
      ((∀ env n decl base, env.module = m → n.attrs.decl.get = .ok decl → decl.name.getD "" = ivar →
          ivarBase? n = .ok (some base) →
          (Refused env n ↔ mayAccess m owner v (accessorName env) = false)) ↔
        first = owner ∨ (w.access = "public" ∧ v.access = "public")) := by
  obtain ⟨howner, hv, first, w, hfirst⟩ := ivarOwner?_of_declaredIvar? hm hcls hown
  obtain ⟨_, hmem, hw⟩ := exists_of_findSome?_eq_some hfirst
  obtain ⟨_, hw, heq⟩ := Option.map_eq_some_iff.mp hw
  cases heq
  refine ⟨first, w, hfirst, fun h => ?_, fun h env n decl base hmodule hdecl hivar hbase => ?_⟩
  · have hsame (accessor) : mayAccess m first w accessor = mayAccess m owner v accessor := by
      have hrefused := h (methodOf m accessor) (otherRef ivar) ⟨some ivar⟩ _ rfl rfl rfl rfl
      rw [refused_iff rfl rfl] at hrefused
      rw [← Bool.not_inj_iff, Bool.eq_iff_iff]
      simpa [methodOf, accessorName, hfirst] using hrefused
    have hpublic : w.access = "public" ↔ v.access = "public" := by
      rw [← mayAccess_outside hm hmem hfree, hsame, mayAccess_outside hm howner hfree]
    by_cases hpub : w.access = "public"
    · exact .inr ⟨hpub, hpublic.mp hpub⟩
    · exact .inl (owner_eq_of_mayAccess hm hacyclic hmem howner hpub (mt hpublic.mpr hpub) hsame)
  · subst hmodule hivar
    rw [refused_iff hdecl hbase, hfirst]
    obtain rfl | ⟨hw', hv'⟩ := h
    · cases hw.symm.trans hv
      simp
    · simp [mayAccess, hw', hv']

def countIvar (access : String) : Ivar := { name := "_count", type := ⟨"int"⟩, access := access }

def tally : ClassDecl := { name := "Tally", ivars := [countIvar "private"] }

def meter : ClassDecl := { name := "Meter", ivars := [countIvar "public"] }

def counters : Module := { classes := ⟨[("Tally", tally), ("Meter", meter)]⟩ }

theorem tally_judged_by_own_class :
    ¬ Refused (methodOf counters "Tally") (otherRef "_count") ∧
      Refused (methodOf counters "Meter") (otherRef "_count") := by
  have hm : counters.Named := ⟨by decide, by simp [counters, tally, meter], by simp [counters, Json.isText],
    by simp [counters, tally, meter]⟩
  have hacyclic : ¬ Cyclic counters := by
    rintro ⟨a, h⟩
    obtain ⟨b, ⟨c, d, hc, hd, -⟩, -⟩ := Relation.TransGen.head'_iff.mp h
    have hc := Module.mem_values_of_class? hc
    simp [counters, Table.values] at hc
    rcases hc with rfl | rfl <;> cases hd
  have hown : declaredIvar? counters tally "_count" = some (tally, countIvar "private") := rfl
  obtain ⟨first, w, hfirst, hiff⟩ := refused_by_own_class_iff hm hacyclic rfl
    (by simp [counters, Table.values]) hown
  cases hfirst
  have hjudged (cls : Name) := hiff.mpr (.inl rfl) (methodOf counters cls) (otherRef "_count") ⟨some "_count"⟩ _
    rfl rfl rfl rfl
  exact ⟨(hjudged "Tally").not.mpr (by decide), (hjudged "Meter").mpr (by decide)⟩

theorem public_variable_refused :
    declaredIvar? counters meter "_count" = some (meter, countIvar "public") ∧
      mayAccess counters meter (countIvar "public") "Meter" = true ∧
      Refused (methodOf counters "Meter") (otherRef "_count") :=
  ⟨rfl, rfl, (refused_iff rfl rfl).mpr ⟨_, rfl, by decide⟩⟩

end ObjcLowering.Lowering
