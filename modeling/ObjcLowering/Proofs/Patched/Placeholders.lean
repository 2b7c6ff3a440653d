import ObjcLowering.Patched.Source
import ObjcLowering.Proofs.Patched.Gathering
import ObjcLowering.Proofs.Patched.Rendering

/-!
The outline of a file asks for values, and gathering answers, except for an implementation of a class
that is not among those of the file.
-/

namespace ObjcLowering.Patched

open List

@[simp] theorem slots_nil : slots [] = [] := rfl

@[simp] theorem slots_text (s : String) (ps : List Piece) : slots (.text s :: ps) = slots ps := rfl

@[simp] theorem slots_slot (key : String) (ps : List Piece) :
    slots (.slot key :: ps) = key :: slots ps := rfl

@[simp] theorem slots_append (ps qs : List Piece) : slots (ps ++ qs) = slots ps ++ slots qs :=
  filterMap_append

def codeTypes : List String := ["preproc_include", "function_definition", "declaration"]

theorem plain_of_code : ∀ type ∈ codeTypes, implementationTypes.contains type = false := by
  decide

def asked (source : String) (t : Tree) : List String :=
  if implementationTypes.contains t.type then
    match declaredName? source t with
    | .ok (some _) => preambleKey source t :: (methodNodes t).map (codeKey source)
    | _ => []
  else if codeTypes.contains t.type then [codeKey source t]
  else []

theorem slots_of_map_keptText {e : Except Fault String} (h : e.map keptText = .ok ps) : slots ps = [] := by
  cases e with
  | error fault => cases h
  | ok text =>
    cases h
    rfl

theorem slots_outlinePart {cls : String} (h : outlinePart source cls t = .ok ps) :
    slots ps = ((methodOf? t).map (codeKey source)).toList := by
  unfold outlinePart at h
  split at h
  · next htype =>
    cases h
    simp [methodOf?, htype]
  · split at h
    · next hsilent =>
      cases h
      have hother : t.type ≠ "implementation_definition" := by
        intro htype
        rw [htype] at hsilent
        exact absurd hsilent (by decide)
      simp [methodOf?, hother]
    · split at h
      · next htype =>
        rw [methodOf?, if_pos htype]
        unfold outlineDefinition at h
        split at h
        · next inner hinner =>
          rw [hinner]
          split at h
          · next hmethod =>
            obtain ⟨selector, -, h⟩ := bind_eq_ok.mp h
            cases h
            simp [Option.filter, hmethod, slotLine]
          · next hother =>
            have hfilter : (some inner).filter (fun c => c.type == "method_definition") = none := by
              simp [hother]
            rw [hfilter]
            split at h
            · cases h
              rfl
            · exact slots_of_map_keptText h
        · next hempty =>
          rw [hempty]
          exact slots_of_map_keptText h
      · next hother =>
        rw [methodOf?, if_neg hother]
        split at h
        · exact slots_of_map_keptText h
        · obtain ⟨text, -, h⟩ := bind_eq_ok.mp h
          cases h
          split <;> rfl

theorem slots_flatten_mapM {ts : List Tree} {f : Tree → Except Fault (List Piece)}
    (hf : ∀ t ps, f t = .ok ps → slots ps = key t) (h : ts.mapM f = .ok pss) :
    slots pss.flatten = ts.flatMap key := by
  induction ts generalizing pss with
  | nil =>
    cases h
    rfl
  | cons t ts ih =>
    obtain ⟨ps, hps, pss, hpss, rfl⟩ := mapM_eq_ok_cons.mp h
    rw [flatten_cons, slots_append, hf t ps hps, ih hpss, flatMap_cons]

theorem slots_outlineImplementation (h : outlineImplementation source t = .ok ps)
    (htype : implementationTypes.contains t.type = true) : slots ps = asked source t := by
  obtain ⟨name, hname, h⟩ := bind_eq_ok.mp h
  rw [asked, if_pos htype, hname]
  cases name with
  | none =>
    obtain ⟨text, -, h⟩ := bind_eq_ok.mp h
    cases h
    rfl
  | some cls =>
    obtain ⟨parts, hparts, h⟩ := bind_eq_ok.mp h
    cases h
    have hslots := slots_flatten_mapM (fun t ps => slots_outlinePart) hparts
    have hmethods : t.children.flatMap (fun c => ((methodOf? c).map (codeKey source)).toList) =
        (methodNodes t).map (codeKey source) := by
      rw [methodNodes, map_filterMap, filterMap_eq_flatMap_toList]
    simp [slotLine, hslots, hmethods]

theorem slots_outlineTop (h : outlineTop source t = .ok ps) : slots ps = asked source t := by
  obtain ⟨text, -, h⟩ := bind_eq_ok.mp h
  split at h
  · next htype =>
    obtain ⟨name, -, h⟩ := bind_eq_ok.mp h
    cases h
    rcases Bool.or_eq_true_iff.mp htype with htype | htype <;>
      simp [asked, of_decide_eq_true htype, implementationTypes, codeTypes, forwardComment]
  · split at h
    · next htype => exact slots_outlineImplementation h htype
    · next himplementation =>
      rw [asked, if_neg himplementation]
      split at h
      · next htype =>
        obtain ⟨name, -, h⟩ := bind_eq_ok.mp h
        cases h
        simp [htype, codeTypes, forwardComment]
      · split at h
        · next hcode =>
          cases h
          rw [if_pos (show codeTypes.contains t.type = true from hcode)]
          rfl
        · next hcode =>
          cases h
          rw [if_neg (show ¬ codeTypes.contains t.type = true from hcode)]
          rfl

theorem slots_outline {root : Tree} (h : outline source root = .ok ps) :
    slots ps = root.children.flatMap (asked source) := by
  obtain ⟨pss, hpss, h⟩ := bind_eq_ok.mp h
  cases h
  exact slots_flatten_mapM (fun t ps => slots_outlineTop) hpss

theorem isKey_of_mem_asked (h : key ∈ asked source t) : IsKey key := by
  unfold asked at h
  split at h
  · split at h
    · rcases mem_cons.mp h with rfl | h
      · exact isKey_preambleKey source t
      · obtain ⟨m, -, rfl⟩ := mem_map.mp h
        exact isKey_codeKey source m
    · cases h
  · split at h
    · cases mem_singleton.mp h
      exact isKey_codeKey source t
    · cases h

theorem isKey_of_outline (h : outline source root = .ok ps) (hkey : Piece.slot key ∈ ps) : IsKey key := by
  rw [← mem_slots, slots_outline h] at hkey
  obtain ⟨t, -, hkey⟩ := mem_flatMap.mp hkey
  exact isKey_of_mem_asked hkey

def answered (input : Input) (t : Tree) : List String :=
  if implementationTypes.contains t.type then
    match declaredName? input.text t with
    | .ok (some name) =>
      preambleKey input.text t ::
        if (input.class? name).isSome then (methodNodes t).map (codeKey input.text) else []
    | _ => [preambleKey input.text t]
  else if codeTypes.contains t.type then [codeKey input.text t]
  else []

theorem asked_of_code (h : t.type ∈ codeTypes) : asked source t = [codeKey source t] := by
  have hcode : codeTypes.contains t.type = true := by simpa using h
  rw [asked, plain_of_code _ h, hcode]
  rfl

theorem answered_of_code (h : t.type ∈ codeTypes) : answered input t = [codeKey input.text t] := by
  have hcode : codeTypes.contains t.type = true := by simpa using h
  rw [answered, plain_of_code _ h, hcode]
  rfl

theorem mem_names_withDefinitions :
    key ∈ (withDefinitions impl values).names ↔ key ∈ values.names ∨ key ∈ impl.definitions.map (·.1) := by
  unfold withDefinitions
  dsimp only
  split
  · next last text hlast =>
    have hmem : last ∈ impl.definitions.map (·.1) :=
      mem_map.mpr ⟨_, mem_of_getLast? hlast, rfl⟩
    split
    · exact Table.mem_names_merge
    · rw [Table.mem_names_set, Table.mem_names_merge]
      constructor
      · rintro (hkey | rfl)
        exacts [hkey, .inr hmem]
      · exact .inl
  · exact Table.mem_names_merge

theorem Adds.mem_names_iff (h : Adds input t g g') :
    key ∈ g'.values.names ↔ key ∈ g.values.names ∨ key ∈ answered input t := by
  have hcode : ∀ {type : String} {value : String}, t.type = type → type ∈ codeTypes →
      g'.values = g.values.set (codeKey input.text t) value →
      (key ∈ g'.values.names ↔ key ∈ g.values.names ∨ key ∈ answered input t) := by
    rintro type value rfl htype hvalues
    rw [answered_of_code htype, hvalues, Table.mem_names_set, mem_singleton]
  cases h with
  | listed htype hname hclass hadds =>
    cases hadds with
    | intro _ hyields hvalues _ =>
      have hkeys := (lowersImplementation_of_yields hyields).keys_eq
      rw [hvalues, Table.mem_names_set, mem_names_withDefinitions, hkeys, answered, if_pos htype, hname]
      simp only [hclass, Option.isSome_some, if_true, mem_cons]
      exact or_right_comm.trans or_assoc
  | unlisted htype hname hclass hvalues _ =>
    rw [hvalues, Table.mem_names_set, answered, if_pos htype, hname]
    cases ‹Option String› with
    | none => simp
    | some name =>
      have hclass : input.class? name = none := hclass
      simp [hclass]
  | included htype _ hvalues _ => exact hcode htype (by decide) hvalues
  | function htype _ hvalues _ => exact hcode htype (by decide) hvalues
  | prototype htype _ hvalues _ => exact hcode htype (by decide) hvalues
  | settled htype _ _ _ _ hvalues _ => exact hcode htype (by decide) hvalues
  | declared htype _ _ _ _ hvalues _ => exact hcode htype (by decide) hvalues
  | silent htype hother hvalues _ =>
    have hother : t.type ∉ codeTypes := hother
    rw [hvalues, answered, htype]
    simp [hother]

theorem AddsAll.mem_names_iff (h : AddsAll input ts g g') :
    key ∈ g'.values.names ↔ key ∈ g.values.names ∨ key ∈ ts.flatMap (answered input) := by
  induction h with
  | nil => simp
  | cons hadds _ ih => rw [ih, hadds.mem_names_iff, flatMap_cons, mem_append, or_assoc]

theorem mem_names_gather (h : gather input statics = .ok g) :
    key ∈ g.values.names ↔ key ∈ input.tops.flatMap (answered input) := by
  rw [(addsAll_of_gather h).mem_names_iff]
  exact or_iff_right not_mem_nil

def strayKeys (input : Input) (t : Tree) : List String :=
  if implementationTypes.contains t.type then
    match declaredName? input.text t with
    | .ok (some name) =>
      if (input.class? name).isSome then [] else (methodNodes t).map (codeKey input.text)
    | _ => []
  else []

def Answers (input : Input) : Prop :=
  ∀ t ∈ input.tops, ∀ key ∈ strayKeys input t, key ∈ input.tops.flatMap (answered input)

instance (input : Input) : Decidable (Answers input) :=
  inferInstanceAs (Decidable (∀ t ∈ input.tops, ∀ key ∈ strayKeys input t,
    key ∈ input.tops.flatMap (answered input)))

theorem mem_asked_iff (hkey : key ∉ answered input t) :
    key ∈ asked input.text t ↔ key ∈ strayKeys input t := by
  unfold asked strayKeys
  unfold answered at hkey
  split
  · next htype =>
    rw [if_pos htype] at hkey
    split
    · next name hname =>
      rw [hname] at hkey
      simp only [mem_cons, not_or] at hkey ⊢
      split
      · next hclass =>
        rw [if_pos hclass] at hkey
        simp [hkey.1, hkey.2]
      · simp [hkey.1]
    · exact Iff.rfl
  · next htype =>
    rw [if_neg htype] at hkey
    split
    · next hcode =>
      rw [if_pos hcode] at hkey
      simpa using hkey
    · exact Iff.rfl

theorem asked_answered_iff :
    (∀ key ∈ input.tops.flatMap (asked input.text), key ∈ input.tops.flatMap (answered input)) ↔
      Answers input := by
  constructor
  · intro h t ht key hkey
    by_cases hown : key ∈ answered input t
    · exact mem_flatMap.mpr ⟨t, ht, hown⟩
    · exact h key (mem_flatMap.mpr ⟨t, ht, (mem_asked_iff hown).mpr hkey⟩)
  · intro h key hkey
    obtain ⟨t, ht, hkey⟩ := mem_flatMap.mp hkey
    by_cases hown : key ∈ answered input t
    · exact mem_flatMap.mpr ⟨t, ht, hown⟩
    · exact h t ht key ((mem_asked_iff hown).mp hkey)

theorem names_dropRepeated (included : List String) (entries : List (String × String)) :
    (dropRepeated included entries).map (·.1) = entries.map (·.1) := by
  fun_induction dropRepeated included entries with
  | case1 => rfl
  | case2 _ _ _ _ _ _ _ ih => rw [map_cons, map_cons, ih]
  | case3 _ _ _ _ _ _ _ ih => rw [map_cons, map_cons, ih]
  | case4 _ _ _ _ _ _ ih => rw [map_cons, map_cons, ih]

inductive FileValues (m : Module) (g : Gathered) : Table String String → Prop
  | classes (includes : List String) : FileValues m g ⟨dropRepeated includes g.values.entries⟩
  | orphan :
      ((dropRepeated includes g.values.entries).mapM fun (key, value) => do
        return (key, ← qualifyClasses m value)) = .ok entries → FileValues m g ⟨entries⟩

theorem names_of_mapM_qualifyClasses {entries qualified : List (String × String)}
    (h : (entries.mapM fun (key, value) => do return (key, ← qualifyClasses m value)) = .ok qualified) :
    qualified.map (·.1) = entries.map (·.1) := by
  induction entries generalizing qualified with
  | nil =>
    cases h
    rfl
  | cons e entries ih =>
    obtain ⟨d, hd, ds, hds, rfl⟩ := mapM_eq_ok_cons.mp h
    obtain ⟨value, -, hd⟩ := bind_eq_ok.mp hd
    cases hd
    rw [map_cons, map_cons, ih hds]

theorem FileValues.names_eq {values : Table String String} (h : FileValues m g values) :
    values.names = g.values.names := by
  cases h with
  | classes includes => exact names_dropRepeated includes _
  | orphan hentries => exact (names_of_mapM_qualifyClasses hentries).trans (names_dropRepeated _ _)

def categoryFile (listed : List Name) : Input :=
  let text := "@implementation Foo (X)\n- (void)go\n@end\n"
  let method : Tree := .node "method_definition" 24 34
    [.node "-" 24 25 [] none, .node "method_type" 26 32 [] none, .node "identifier" 32 34 [] none] none
  let category : Tree := .node "category_implementation" 0 39
    [.node "@implementation" 0 15 [] none, .node "identifier" 16 19 [] none,
     .node "implementation_definition" 24 34 [method] none, .node "@end" 35 39 [] none] none
  { files := { trees := [(text, [category])] }
    path := .ofText "Foo.m"
    text
    module := {}
    classes := listed.map fun name => { name }
    root := "OZObject" }

def categoryOutline : List Piece :=
  [.text "/* @implementation Foo */\n", .slot "_impl_1_1", .text "\n",
   .text "\n/* -[Foo go] */\n", .slot "_n_2_1", .text "\n", .text "/* @end Foo */\n"]

end ObjcLowering.Patched
