import ObjcLowering.Proofs.Patched.Definitions

/-!
The text of a generated file as a composition of fragments, each of which stands where the outline asks
for it.
-/

namespace ObjcLowering.Patched

open Lowering Output List Table

variable {input : Input}

def definedIn (labels : Table String (List Fragment)) (is : List Item) : List Part :=
  (slotsIn is).flatMap fun key => ((labels.find? key).map partsOf).getD []

def Row.label (r : Row) : String × List Part := (r.key, r.parts)

theorem exists_labels {rows : List Row} (h : ∀ r ∈ rows, Composed input r.parts r.text) :
    ∃ labels : Table String (List Fragment), labels.mapValues textOf = ⟨rows.map Row.entry⟩ ∧
      labels.mapValues partsOf = ⟨rows.map Row.label⟩ ∧ ∀ fs ∈ labels.values, ∀ f ∈ fs, Written input f := by
  induction rows with
  | nil => exact ⟨⟨[]⟩, rfl, rfl, fun _ hfs => (not_mem_nil hfs).elim⟩
  | cons r rows ih =>
    obtain ⟨⟨fs, hparts, htext, hwritten⟩, hrows⟩ := forall_mem_cons.mp h
    obtain ⟨⟨entries⟩, htexts, hlabels, hall⟩ := ih hrows
    refine ⟨⟨(r.key, fs) :: entries⟩, ?_, ?_, forall_mem_cons.mpr ⟨hwritten, hall⟩⟩
    · simp only [mapValues, mk.injEq] at htexts
      simp only [mapValues, map_cons, htexts, htext]
      rfl
    · simp only [mapValues, mk.injEq] at hlabels
      simp only [mapValues, map_cons, hlabels, hparts]
      rfl

theorem exists_rows_dropRepeated (included : List String) {rows : List Row}
    (hbare : ∀ r ∈ rows, Text.begins "#include" (Text.trim r.text) = true → r.parts = [])
    (hcomposed : ∀ r ∈ rows, Composed input r.parts r.text) :
    ∃ kept : List Row, kept.map Row.entry = dropRepeated included (rows.map Row.entry) ∧
      kept.map Row.label = rows.map Row.label ∧ ∀ r ∈ kept, Composed input r.parts r.text := by
  induction rows generalizing included with
  | nil => exact ⟨[], rfl, rfl, fun _ hr => (not_mem_nil hr).elim⟩
  | cons r rows ih =>
    obtain ⟨hr, hrows⟩ := forall_mem_cons.mp hbare
    obtain ⟨hown, hothers⟩ := forall_mem_cons.mp hcomposed
    have hkeep : ∀ included', ∃ kept : List Row,
        kept.map Row.entry = r.entry :: dropRepeated included' (rows.map Row.entry) ∧
        kept.map Row.label = (r :: rows).map Row.label ∧ ∀ r ∈ kept, Composed input r.parts r.text := by
      intro included'
      obtain ⟨kept, hentries, hlabels, hkept⟩ := ih included' hrows hothers
      exact ⟨r :: kept, by rw [map_cons, hentries], by rw [map_cons, map_cons, hlabels],
        forall_mem_cons.mpr ⟨hown, hkept⟩⟩
    rw [map_cons, Row.entry, dropRepeated]
    split
    · next hinclude =>
      split
      · obtain ⟨kept, hentries, hlabels, hkept⟩ := ih included hrows hothers
        refine ⟨⟨r.key, [], ""⟩ :: kept, ?_, ?_, forall_mem_cons.mpr ⟨.nil, hkept⟩⟩
        · rw [map_cons, hentries]
          rfl
        · rw [map_cons, map_cons, hlabels, Row.label, Row.label, hr hinclude]
      · exact hkeep _
    · exact hkeep _

theorem asked_sublist : (asked input.text t).Sublist (places input.text t) := by
  unfold asked places
  split
  · split
    · exact .refl _
    · exact nil_sublist _
  · exact .refl _

theorem flatMap_sublist {f h : Tree → List String} (hsub : ∀ t, (f t).Sublist (h t)) (ts : List Tree) :
    (ts.flatMap f).Sublist (ts.flatMap h) := by
  induction ts with
  | nil => exact .refl _
  | cons t ts ih =>
    rw [flatMap_cons, flatMap_cons]
    exact (hsub t).append ih

/-- What is expected of a file: the kept text opens no form, the nodes have places of their own, and only
includes include something. -/
structure Regular (input : Input) (ps : List Piece) (g : Gathered) : Prop where
  forms : OpensNoForm (layout ps)
  places : (input.tops.flatMap (places input.text)).Nodup
  includes : ∀ e ∈ g.values.entries, Text.begins "#include" (Text.trim e.2) = true →
    ∃ t ∈ input.tops, t.type = "preproc_include" ∧ e.1 = codeKey input.text t

theorem eq_of_mem_places (h : (input.tops.flatMap (places input.text)).Nodup)
    (ht : t ∈ input.tops) (hu : u ∈ input.tops) (hkey : key ∈ places input.text t)
    (hkey' : key ∈ places input.text u) : t = u := by
  by_contra hne
  have hpairwise := (nodup_flatMap.mp h).2
  have hsymm : Std.Symm (Function.onFun Disjoint (places input.text)) := 
    ⟨fun _ _ hd _ ha hb => hd hb ha⟩
  exact hpairwise.forall ht hu hne hkey hkey'

theorem exists_rows_of_gather (hg : gather input [] = .ok g) (hregular : Regular input ps g) :
    ∃ rows : List Row, g.values.entries = rows.map Row.entry ∧ (rows.map (·.key)).Nodup ∧
      (rows.flatMap (·.parts)).Perm (partsFrom input (distinct input.staticNames) input.tops) ∧
      (∀ r ∈ rows, r.key ∈ input.tops.flatMap (asked input.text) ∨ r.parts = []) ∧
      (∀ r ∈ rows, Text.begins "#include" (Text.trim r.text) = true → r.parts = []) ∧
      ∀ r ∈ rows, Composed input r.parts r.text := by
  have hdistinct : (input.tops.flatMap (answered input)).Nodup :=
    hregular.places.sublist (flatMap_sublist (fun _ => answered_sublist) _)
  obtain ⟨rows, hentries, hkeys, hparts, hrows⟩ :=
    (addsAll_of_gather hg).rows (Subset.refl _) hdistinct
  rw [nil_append] at hparts
  have hentries : g.values.entries = rows.map Row.entry := hentries
  refine ⟨rows, hentries, hkeys.nodup_iff.mpr hdistinct, hparts, ?_, ?_, ?_⟩
  · intro r hr
    obtain ⟨t, ht, hat⟩ := hrows r hr
    exact hat.asked.imp_left fun hkey => mem_flatMap.mpr ⟨t, ht, hkey⟩
  · intro r hr hbegins
    obtain ⟨t, ht, hat⟩ := hrows r hr
    have hentry : r.entry ∈ g.values.entries := hentries ▸ mem_map_of_mem hr
    obtain ⟨u, hu, hinclude, hkey⟩ := hregular.includes _ hentry hbegins
    have hplace : r.key ∈ places input.text u := by
      have hcode : u.type ∈ codeTypes := by simp [hinclude, codeTypes]
      have hasked : r.key ∈ asked input.text u := by
        rw [asked_of_code hcode]
        exact mem_singleton.mpr hkey
      exact asked_sublist.subset hasked
    cases eq_of_mem_places hregular.places ht hu hat.mem_places hplace
    exact hat.bare hinclude
  · intro r hr
    obtain ⟨t, -, hat⟩ := hrows r hr
    exact hat.composed

def fileStart (input : Input) (includes : List String) (poolCount : Name → Int) (typeDefs : String)
    (strings : List String) : String :=
  banner ++ unlines includes ++ typeDefs
    ++ String.join (input.classes.map fun c =>
      s!"\nOZ_SLAB_DEFINE(oz_slab_{c.name}, sizeof(struct {c.name}), {max (poolCount c.name) 1}, 4);\n")
    ++ sharedConstants strings

/-- The text of a file is its outline, in which fragments take the places of the placeholders, after the
includes and definitions that it needs. -/
inductive FileText (input : Input) (ps : List Piece) (stem : Name) (poolCount : Name → Int)
    (strings : List String) (labels : Table String (List Fragment)) : String → Prop
  | intro {stems : List Name} {body typeDefs : String} : otherStems input.module stem = .ok stems →
      filled (labels.mapValues textOf) (tidy (layout ps)) = .ok body →
      typeDefsFor input.module body = .ok typeDefs →
      FileText input ps stem poolCount strings labels
        (fileStart input ((stem :: stems).map includeHeader) poolCount typeDefs strings ++ body)

theorem classFile_eq
    (hps : outline input.text (input.files.treeOf input.text) = .ok ps) (hg : gather input [] = .ok g) :
    classFile input stem poolCount = do
      let stems ← otherStems input.module stem
      let includes := (stem :: stems).map includeHeader
      let body ← render (outlineText ps) ⟨dropRepeated includes g.values.entries⟩
      let typeDefs ← typeDefsFor input.module body
      return ⟨fileStart input includes poolCount typeDefs g.strings ++ body, g.diagnostics, g.errors⟩ := by
  have houtline : outlineOf input = .ok (outlineText ps) := by
    rw [outlineOf, hps]
    rfl
  rw [classFile, houtline, hg]
  rfl

theorem exists_labels_of_classFile {stem : Name}
    (hps : outline input.text (input.files.treeOf input.text) = .ok ps) (hg : gather input [] = .ok g)
    (hregular : Regular input ps g) (hout : classFile input stem poolCount = .ok out) :
    ∃ labels : Table String (List Fragment), FileText input ps stem poolCount g.strings labels out.text ∧
      (∀ fs ∈ labels.values, ∀ f ∈ fs, Written input f) ∧
      (definedIn labels (tidy (layout ps))).Perm
        (partsFrom input (distinct input.staticNames) input.tops) := by
  rw [classFile_eq hps hg] at hout
  obtain ⟨stems, hstems, hout⟩ := bind_eq_ok.mp hout
  obtain ⟨body, hbody, hout⟩ := bind_eq_ok.mp hout
  obtain ⟨typeDefs, htypeDefs, hout⟩ := bind_eq_ok.mp hout
  obtain ⟨rows, hentries, hkeys, hparts, hasked, hbare, hcomposed⟩ := exists_rows_of_gather hg hregular
  obtain ⟨kept, hkept, hlabel, hcomposed⟩ :=
    exists_rows_dropRepeated ((stem :: stems).map includeHeader) hbare hcomposed
  obtain ⟨labels, htexts, hlabels, hwritten⟩ := exists_labels hcomposed
  refine ⟨labels, ?_, hwritten, ?_⟩
  · rw [render_outlineText _ (fun key => isKey_of_outline hps) hregular.forms, hentries, ← hkept, ← htexts]
      at hbody
    cases hout
    exact .intro hstems hbody htypeDefs
  · rw [hlabel] at hlabels
    have hfind : ∀ key, ((labels.find? key).map partsOf).getD [] =
        (find? ⟨rows.map Row.label⟩ key).getD [] := by
      intro key
      rw [← hlabels, find?_mapValues]
    have hnames : (⟨rows.map Row.label⟩ : Table String (List Part)).names.Nodup := by
      rw [names, map_map]
      exact hkeys
    have hslots : (slotsIn (tidy (layout ps))).Nodup := by
      rw [slotsIn_tidy, slotsIn_layout, slots_outline hps]
      exact hregular.places.sublist (flatMap_sublist (fun _ => asked_sublist) _)
    have hvalues : (⟨rows.map Row.label⟩ : Table String (List Part)).values.flatten =
        rows.flatMap (·.parts) := by
      rw [values, map_map]
      rfl
    rw [definedIn]
    simp only [hfind]
    refine (flatMap_find?_perm hslots hnames ?_).trans (hvalues ▸ hparts)
    intro e he
    obtain ⟨r, hr, rfl⟩ := mem_map.mp he
    rw [slotsIn_tidy, slotsIn_layout, slots_outline hps]
    exact hasked r hr

end ObjcLowering.Patched
