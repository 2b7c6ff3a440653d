import ObjcLowering.Proofs.Program.Orphans

/-! The paths of generated files. -/

namespace ObjcLowering.Program

open Ast Output List

variable {p : Plan} {e e' : Emission}

inductive Ending
  | dispatchHeader
  | dispatchSource
  | header
  | source
  deriving DecidableEq

def Ending.text : Ending → String
  | dispatchHeader => "_dispatch.h"
  | dispatchSource => "_dispatch.c"
  | header => "_ozh.h"
  | source => "_ozm.c"

def pathOf (file : String × Ending) : String := file.1 ++ file.2.text

namespace Plan

def groupDir (p : Plan) (classes : List ClassDecl) : String :=
  if classes.all (·.isFoundation) then p.options.foundationDir else p.options.outdir

def groupPlace (p : Plan) (group : Name × List ClassDecl) : String :=
  inDirectory (p.groupDir group.2) (toString group.1)

def orphanPlace (p : Plan) (orphan : Orphan) : String := inDirectory p.options.outdir orphan.stem

def sourcePlaces (p : Plan) : List String :=
  p.stemGroups.entries.map p.groupPlace ++ p.module.orphans.map p.orphanPlace

def sharedFiles (p : Plan) : List (String × Ending) :=
  let place := inDirectory p.options.foundationDir "oz"
  [(place, .dispatchHeader), (place, .dispatchSource)]

def groupFiles (p : Plan) (group : Name × List ClassDecl) : List (String × Ending) :=
  [(p.groupPlace group, .header), (p.groupPlace group, .source)]

def orphanFile (p : Plan) (orphan : Orphan) : String × Ending := (p.orphanPlace orphan, .source)

def allFiles (p : Plan) : List (String × Ending) :=
  p.sharedFiles ++ p.stemGroups.entries.flatMap p.groupFiles ++ p.module.orphans.map p.orphanFile

end Plan

theorem inDirectory_append (dir name : String) (h : Text.begins "/" ending = false) :
    inDirectory dir (name ++ ending) = inDirectory dir name ++ ending := by
  have hbegins : Text.begins "/" (name ++ ending) = Text.begins "/" name := by
    unfold Text.begins at h ⊢
    rw [String.toList_append]
    cases hname : name.toList with
    | nil => simpa using h
    | cons c s => simp [isPrefixOf]
  unfold inDirectory
  rw [hbegins]
  split
  · rfl
  split <;> simp only [String.append_assoc]

theorem inDirectory_ending (dir name : String) (ending : Ending) :
    inDirectory dir (name ++ ending.text) = pathOf (inDirectory dir name, ending) :=
  inDirectory_append dir name (by cases ending <;> decide)

theorem written_write (h : e.write path text = .ok e') : e'.written = e.written ++ [path] := by
  simp only [Emission.write, bind_eq_ok, pure_eq_ok] at h
  obtain ⟨fs, -, rfl⟩ := h
  rfl

@[simp] theorem written_say (e : Emission) (diagnostics errors : List String) :
    (e.say diagnostics errors).written = e.written := rfl

theorem exists_writes_of_writeGroup (h : p.writeGroup e (stem, classes) = .ok e') :
    ∃ header e₁ source e₂ diagnostics errors,
      e.write (inDirectory (p.groupDir classes) (headerName stem)) header = .ok e₁ ∧
      e₁.write (inDirectory (p.groupDir classes) (sourceName stem)) source = .ok e₂ ∧
      e' = e₂.say diagnostics errors := by
  simp only [Plan.writeGroup, bind_eq_ok] at h
  obtain ⟨headers, -, e₁, h₁, h⟩ := h
  split at h <;>
  · simp only [bind_eq_ok, pure_eq_ok] at h
    obtain ⟨source, -, e₂, h₂, rfl⟩ := h
    exact ⟨_, e₁, _, e₂, _, _, h₁, h₂, rfl⟩

theorem written_writeGroup (h : p.writeGroup e group = .ok e') :
    e'.written = e.written ++ (p.groupFiles group).map pathOf := by
  obtain ⟨stem, classes⟩ := group
  obtain ⟨_, e₁, _, e₂, _, _, h₁, h₂, rfl⟩ := exists_writes_of_writeGroup h
  have hpath : ∀ ending : Ending, inDirectory (p.groupDir classes) (toString stem ++ ending.text) =
      pathOf (p.groupPlace (stem, classes), ending) := inDirectory_ending _ _
  rw [written_say, written_write h₂, written_write h₁, append_assoc]
  exact congrArg _ (congrArg₂ (fun a b => [a, b]) (hpath .header) (hpath .source))

theorem written_orphanFunctions {functions : List Function}
    (h : functions.foldlM p.orphanFunction acc = .ok acc') : acc'.2.written = acc.2.written := by
  refine ensures_foldlM (Q := fun b => b.2.written = acc.2.written) rfl (fun b f hb => ?_) acc' h
  exact ensures_then fun _ _ => ensures_pure hb

theorem written_writeOrphan {orphan : Orphan} (h : p.writeOrphan e orphan = .ok e') :
    e'.written = e.written ++ [pathOf (p.orphanFile orphan)] := by
  have hpath : inDirectory p.options.outdir (sourceName orphan.stem) = pathOf (p.orphanFile orphan) :=
    inDirectory_ending _ _ .source
  rw [← hpath]
  unfold Plan.writeOrphan at h
  dsimp only at h
  split at h
  · simp only [bind_eq_ok, pure_eq_ok] at h
    obtain ⟨g, -, e₁, h₁, rfl⟩ := h
    rw [written_say, written_write h₁]
  · simp only [bind_eq_ok] at h
    obtain ⟨⟨texts, e₁⟩, hfunctions, text, -, h₁⟩ := h
    rw [written_write h₁]
    exact congrArg (· ++ _) (written_orphanFunctions hfunctions)

theorem written_foldlM {f : Emission → α → Except Fault Emission}
    (hf : ∀ e x e', f e x = .ok e' → e'.written = e.written ++ g x) {xs : List α}
    (h : xs.foldlM f e = .ok e') : e'.written = e.written ++ xs.flatMap g := by
  induction xs generalizing e with
  | nil =>
    cases h
    simp
  | cons x xs ih =>
    obtain ⟨e₁, h₁, h⟩ := foldlM_cons_eq_ok.mp h
    rw [ih h, hf _ _ _ h₁, flatMap_cons, append_assoc]

theorem written_emit (h : p.emit files = .ok e) : e.written = p.allFiles.map pathOf := by
  simp only [Plan.emit, bind_eq_ok] at h
  obtain ⟨header, -, e₁, h₁, source, -, e₂, h₂, e₃, h₃, h₄⟩ := h
  have hshared : e₂.written = p.sharedFiles.map pathOf := by
    have hpath : ∀ ending : Ending, inDirectory p.options.foundationDir ("oz" ++ ending.text) =
        pathOf (inDirectory p.options.foundationDir "oz", ending) := inDirectory_ending _ _
    rw [written_write h₂, written_write h₁]
    exact congrArg₂ (fun a b => [a, b]) (hpath .dispatchHeader) (hpath .dispatchSource)
  rw [written_foldlM (f := p.writeOrphan) (fun _ _ _ => written_writeOrphan) h₄,
    written_foldlM (f := p.writeGroup) (fun _ _ _ => written_writeGroup) h₃, hshared, Plan.allFiles, map_append, map_append, map_flatMap, map_map,
    ← map_eq_flatMap]
  rfl

theorem pathOf_injective : Function.Injective pathOf := by
  rintro ⟨a, x⟩ ⟨b, y⟩ h
  have hback := congrArg (fun s : String => s.toList.reverse) h
  simp only [pathOf, String.toList_append, reverse_append] at hback
  have hparts : a.toList = b.toList ∧ x = y := by
    cases x <;> cases y <;> simp [Ending.text] at hback ⊢ <;> exact hback
  rw [String.toList_injective hparts.1, hparts.2]

theorem filter_source_allFiles (p : Plan) :
    p.allFiles.filter (·.2 = .source) = p.sourcePlaces.map (·, .source) := by
  have hgroup : ∀ group, (p.groupFiles group).filter (·.2 = .source) = [(p.groupPlace group, .source)] :=
    fun group => rfl
  have horphans : (p.module.orphans.map p.orphanFile).filter (·.2 = .source) =
      p.module.orphans.map p.orphanFile := by
    refine filter_eq_self.mpr fun file hfile => ?_
    obtain ⟨orphan, -, rfl⟩ := mem_map.mp hfile
    rfl
  have hshared : p.sharedFiles.filter (·.2 = .source) = [] := rfl
  rw [Plan.allFiles, filter_append, filter_append, hshared, horphans, filter_flatMap]
  simp only [hgroup, ← map_eq_flatMap, Plan.sourcePlaces, map_append, map_map]
  rfl

theorem nodup_allFiles_iff (p : Plan) : p.allFiles.Nodup ↔ p.sourcePlaces.Nodup := by
  constructor
  · intro h
    have hfilter := h.filter (·.2 = .source)
    rw [filter_source_allFiles] at hfilter
    exact hfilter.of_map
  · intro h
    obtain ⟨hgroups, horphans, hdisjoint⟩ := List.nodup_append.mp h
    have hgroupFiles : (p.stemGroups.entries.flatMap p.groupFiles).Nodup := by
      refine nodup_flatMap.mpr ⟨fun group _ => by simp [Plan.groupFiles], ?_⟩
      refine (pairwise_map.mp hgroups).imp fun {a b} hne => ?_
      simp [Function.onFun, Plan.groupFiles, List.Disjoint, hne]
    have horphanFiles : (p.module.orphans.map p.orphanFile).Nodup := by
      refine pairwise_map.mpr ((pairwise_map.mp horphans).imp fun {a b} hne => ?_)
      simpa [Plan.orphanFile] using hne
    have hends : ∀ file ∈ p.sharedFiles, file.2 ≠ .header ∧ file.2 ≠ .source := by simp [Plan.sharedFiles]
    refine nodup_append.mpr ⟨nodup_append.mpr ⟨by simp [Plan.sharedFiles], hgroupFiles, ?_⟩,
      horphanFiles, ?_⟩
    · rintro file hfile _ hmem rfl
      obtain ⟨group, -, hgroup⟩ := mem_flatMap.mp hmem
      rcases mem_pair.mp hgroup with rfl | rfl
      · exact (hends _ hfile).1 rfl
      · exact (hends _ hfile).2 rfl
    · rintro file hfile _ hmem rfl
      obtain ⟨orphan, horphan, rfl⟩ := mem_map.mp hmem
      rcases mem_append.mp hfile with hfile | hfile
      · exact (hends _ hfile).2 rfl
      · obtain ⟨group, hgroup, hfile⟩ := mem_flatMap.mp hfile
        have hplace : p.orphanPlace orphan = p.groupPlace group := by
          rcases mem_pair.mp hfile with hfile | hfile <;> exact congrArg Prod.fst hfile
        exact hdisjoint _ (mem_map_of_mem hgroup) _ (mem_map_of_mem horphan) hplace.symm

def addToGroup (groups : Table Name (List ClassDecl)) (c : ClassDecl) : Table Name (List ClassDecl) :=
  groups.set (fileStem c) ((groups.find? (fileStem c)).getD [] ++ [c])

theorem group_addToGroup (groups : Table Name (List ClassDecl)) (c : ClassDecl) (stem : Name) :
    ((addToGroup groups c).find? stem).getD [] =
      (groups.find? stem).getD [] ++ [c].filter (fileStem · == stem) := by
  rw [addToGroup, Table.find?_set]
  by_cases hstem : stem = fileStem c
  · subst hstem
    simp
  · simp [hstem, Ne.symm hstem]

theorem nodup_stems (p : Plan) : p.stemGroups.names.Nodup := by
  have hfold : ∀ (cs : List ClassDecl) (groups : Table Name (List ClassDecl)), groups.names.Nodup →
      (cs.foldl addToGroup groups).names.Nodup := by
    intro cs
    induction cs with
    | nil => exact fun groups h => h
    | cons c cs ih => exact fun groups h => ih _ (Table.nodup_names_set h _ _)
  exact hfold p.module.classes.values {} nodup_nil

theorem group_stemGroups (p : Plan) (stem : Name) :
    (p.stemGroups.find? stem).getD [] = p.module.classes.values.filter (fileStem · == stem) := by
  have hfold : ∀ (cs : List ClassDecl) (groups : Table Name (List ClassDecl)),
      ((cs.foldl addToGroup groups).find? stem).getD [] =
        (groups.find? stem).getD [] ++ cs.filter (fileStem · == stem) := by
    intro cs
    induction cs with
    | nil => simp
    | cons c cs ih =>
      intro groups
      rw [foldl_cons, ih, group_addToGroup, append_assoc, ← filter_append]
      rfl
  exact hfold p.module.classes.values {}

theorem exists_class_of_stem (h : stem ∈ p.stemGroups.names) :
    ∃ c ∈ p.module.classes.values, fileStem c = stem := by
  have hfold : ∀ (cs : List ClassDecl) (groups : Table Name (List ClassDecl)),
      stem ∈ (cs.foldl addToGroup groups).names → stem ∈ groups.names ∨ ∃ c ∈ cs, fileStem c = stem := by
    intro cs
    induction cs with
    | nil => exact fun groups h => .inl h
    | cons c cs ih =>
      intro groups h
      rcases ih _ h with h | ⟨d, hd, hstem⟩
      · rcases Table.mem_names_set.mp h with h | rfl
        · exact .inl h
        · exact .inr ⟨c, .head _, rfl⟩
      · exact .inr ⟨d, .tail _ hd, hstem⟩
  refine (hfold p.module.classes.values {} h).resolve_left fun h => ?_
  cases h

theorem exists_group_iff :
    (∃ group ∈ p.stemGroups.entries, group.1 = stem ∧ group.2.all (·.isFoundation) = false) ↔
      ∃ c ∈ p.module.classes.values, fileStem c = stem ∧ c.isFoundation = false := by
  constructor
  · rintro ⟨⟨stem, classes⟩, hmem, rfl, hall⟩
    have hgroup := group_stemGroups p stem
    rw [Table.find?_of_mem (nodup_stems p) hmem, Option.getD_some] at hgroup
    obtain ⟨c, hc, huser⟩ := all_eq_false.mp hall
    rw [hgroup, mem_filter] at hc
    exact ⟨c, hc.1, by simpa using hc.2, by simpa using huser⟩
  · rintro ⟨c, hc, rfl, huser⟩
    have hgroup := group_stemGroups p (fileStem c)
    have hmem : c ∈ p.module.classes.values.filter (fileStem · == fileStem c) :=
      mem_filter.mpr ⟨hc, by simp⟩
    rw [← hgroup] at hmem
    cases hfound : p.stemGroups.find? (fileStem c) with
    | none => simp [hfound] at hmem
    | some classes =>
      rw [hfound, Option.getD_some] at hmem
      exact ⟨(fileStem c, classes), Table.mem_of_find? hfound, rfl,
        all_eq_false.mpr ⟨c, hmem, by simp [huser]⟩⟩

def dirStart (dir : String) : String := if dir = "" || Text.ends "/" dir then dir else dir ++ "/"

theorem inDirectory_of_isFileName (h : IsFileName name) : inDirectory dir name = dirStart dir ++ name := by
  have hbegins : Text.begins "/" name = false := by
    unfold Text.begins
    unfold IsFileName at h
    cases hname : name.toList with
    | nil => rfl
    | cons c s =>
      rw [hname, mem_cons, not_or] at h
      simpa [isPrefixOf] using h.1
  rw [inDirectory, hbegins, if_neg Bool.false_ne_true, dirStart]
  split <;> rfl

theorem dirStart_foundationDir (o : Options) : dirStart o.foundationDir = dirStart o.outdir ++ "Foundation/" := by
  have hname : IsFileName "Foundation" := by
    rw [IsFileName]
    decide
  have hdir : o.foundationDir = dirStart o.outdir ++ "Foundation" := inDirectory_of_isFileName hname
  have hne : o.foundationDir ≠ "" := by
    intro hempty
    have hchars := congrArg String.toList hempty
    simp [hdir] at hchars
  have hends : Text.ends "/" o.foundationDir = false := by
    simp [Text.ends, hdir, isSuffixOf, isPrefixOf]
  rw [dirStart, hends, if_neg (by simpa using hne), hdir, String.append_assoc]
  rfl

theorem inDirectory_inj {o : Options} {b b' : Bool} (hs : IsFileName s) (hs' : IsFileName s')
    (h : inDirectory (if b then o.foundationDir else o.outdir) s =
      inDirectory (if b' then o.foundationDir else o.outdir) s') : b = b' ∧ s = s' := by
  have hoff : ∀ {t t' : String}, IsFileName t' →
      dirStart o.outdir ++ "Foundation/" ++ t ≠ dirStart o.outdir ++ t' := by
    intro t t' ht' heq
    rw [String.append_assoc, String.append_right_inj] at heq
    refine ht' ?_
    rw [← heq]
    simp
  rw [inDirectory_of_isFileName hs, inDirectory_of_isFileName hs'] at h
  cases b <;> cases b' <;>
    simp only [if_true, if_neg Bool.false_ne_true, dirStart_foundationDir] at h
  · exact ⟨rfl, String.append_right_inj _ |>.mp h⟩
  · exact absurd h.symm (hoff hs)
  · exact absurd h (hoff hs')
  · exact ⟨rfl, String.append_right_inj _ |>.mp h⟩

def Plan.IsWellNamed (p : Plan) : Prop :=
  ∀ c ∈ p.module.classes.values, ∃ s, fileStem c = .text s ∧ IsFileName s

theorem groupPlace_eq (h : group.1 = .text s) : p.groupPlace group =
      inDirectory (if group.2.all (·.isFoundation) then p.options.foundationDir else p.options.outdir) s := by
  rw [Plan.groupPlace, h]
  rfl

theorem orphanPlace_eq (p : Plan) (orphan : Orphan) : p.orphanPlace orphan =
    inDirectory (if false then p.options.foundationDir else p.options.outdir) orphan.stem := rfl

theorem Plan.IsWellNamed.stem (hp : p.IsWellNamed)
    (h : group ∈ p.stemGroups.entries) : ∃ s, group.1 = .text s ∧ IsFileName s := by
  obtain ⟨c, hc, hstem⟩ := exists_class_of_stem (Table.mem_names.mpr ⟨group.2, h⟩)
  rw [← hstem]
  exact hp c hc

theorem nodup_groupPlaces (hp : p.IsWellNamed) : (p.stemGroups.entries.map p.groupPlace).Nodup := by
  refine pairwise_map.mpr ((pairwise_map.mp (nodup_stems p)).imp_of_mem ?_)
  intro a b ha hb hne hplace
  obtain ⟨s, has, hs⟩ := hp.stem ha
  obtain ⟨t, hbt, ht⟩ := hp.stem hb
  rw [groupPlace_eq has, groupPlace_eq hbt] at hplace
  obtain ⟨-, rfl⟩ := inDirectory_inj hs ht hplace
  exact hne (has.trans hbt.symm)

theorem nodup_orphanPlaces_iff (horphans : ∀ o ∈ p.module.orphans, IsFileName o.stem) :
    (p.module.orphans.map p.orphanPlace).Nodup ↔ (p.module.orphans.map (·.stem)).Nodup := by
  simp only [Nodup, pairwise_map]
  constructor
  · refine fun h => h.imp fun hne hstem => hne ?_
    rw [orphanPlace_eq, orphanPlace_eq, hstem]
  · refine fun h => h.imp_of_mem fun ha hb hne hplace => hne ?_
    rw [orphanPlace_eq, orphanPlace_eq] at hplace
    exact (inDirectory_inj (horphans _ ha) (horphans _ hb) hplace).2

theorem orphanPlace_eq_groupPlace_iff (hp : p.IsWellNamed) (ho : IsFileName o.stem)
    {group : Name × List ClassDecl} (hgroup : group ∈ p.stemGroups.entries) :
    p.groupPlace group = p.orphanPlace o ↔
      group.1 = .text o.stem ∧ group.2.all (·.isFoundation) = false := by
  obtain ⟨s, hstem, hs⟩ := hp.stem hgroup
  rw [groupPlace_eq hstem, orphanPlace_eq]
  constructor
  · intro hplace
    obtain ⟨huser, rfl⟩ := inDirectory_inj hs ho hplace
    exact ⟨hstem, huser⟩
  · rintro ⟨hsame, huser⟩
    rw [hstem] at hsame
    cases hsame
    rw [huser]

theorem nodup_sourcePlaces_iff (hp : p.IsWellNamed) (horphans : ∀ o ∈ p.module.orphans, IsFileName o.stem) :
    p.sourcePlaces.Nodup ↔ (p.module.orphans.map (·.stem)).Nodup ∧
      ∀ o ∈ p.module.orphans, ∀ c ∈ p.module.classes.values, fileStem c = .text o.stem →
        c.isFoundation = true := by
  rw [Plan.sourcePlaces, nodup_append, nodup_orphanPlaces_iff horphans, and_iff_right (nodup_groupPlaces hp)]
  refine and_congr_right fun _ => ?_
  constructor
  · intro hapart o ho c hc hstem
    refine Bool.not_eq_false _ |>.mp fun huser => ?_
    obtain ⟨group, hgroup, hname, hall⟩ := exists_group_iff.mpr ⟨c, hc, hstem, huser⟩
    exact hapart _ (mem_map_of_mem hgroup) _ (mem_map_of_mem ho)
      ((orphanPlace_eq_groupPlace_iff hp (horphans o ho) hgroup).mpr ⟨hname, hall⟩)
  · intro hown place hplace place' hplace' heq
    obtain ⟨group, hgroup, rfl⟩ := mem_map.mp hplace
    obtain ⟨o, ho, rfl⟩ := mem_map.mp hplace'
    obtain ⟨hname, hall⟩ := (orphanPlace_eq_groupPlace_iff hp (horphans o ho) hgroup).mp heq
    obtain ⟨c, hc, hstem, huser⟩ := exists_group_iff.mp ⟨group, hgroup, hname, hall⟩
    exact Bool.false_ne_true (huser.symm.trans (hown o ho c hc hstem))

/-- The files that a run writes have paths of their own exactly if their sources have places of their
own. Where classes have proper names, that is so exactly if no two sources that stand alone share a
stem, and none shares it with a class outside of the foundation. -/
theorem written_nodup_iff_stems_apart {fs : Files} {options : Options} {trees : List Node} {out : Outcome}
    (h : run fs options trees = .ok out) (hwritten : out.written ≠ []) :
    ∃ ms p, collectAll fs options.sources trees = .ok ms ∧ planned fs options trees = .ok p ∧
      (out.written.Nodup ↔ p.sourcePlaces.Nodup) ∧
      (p.IsWellNamed → (out.written.Nodup ↔
        ((ms.filter (·.standsAlone)).map (·.stem)).Nodup ∧
          ∀ m ∈ ms, m.standsAlone = true → ∀ c ∈ p.module.classes.values, fileStem c = .text m.stem →
            c.isFoundation = true)) := by
  obtain ⟨p, files, e, hp, he, hout⟩ := written_of_run h hwritten
  obtain ⟨ms, hms, hfresh, horphans⟩ := orphans_of_planned hp
  have hplaces : out.written.Nodup ↔ p.sourcePlaces.Nodup := by
    rw [hout, written_emit he, nodup_map_iff pathOf_injective, nodup_allFiles_iff]
  refine ⟨ms, p, hms, hp, hplaces, fun hnamed => ?_⟩
  have hstems : ∀ o ∈ p.module.orphans, IsFileName o.stem := by
    intro o ho
    rw [horphans] at ho
    obtain ⟨m, hm, rfl⟩ := mem_map.mp ho
    exact (hfresh m (mem_filter.mp hm).1).stem
  rw [hplaces, nodup_sourcePlaces_iff hnamed hstems, horphans, map_map]
  simp only [forall_mem_map, mem_filter, and_imp]
  rfl

def functionTree (name : String) (declarations : List Node) : Node :=
  .bare "TranslationUnitDecl" (declarations ++
    [.mk { kind := "FunctionDecl", name := some (.text name) } [.bare "CompoundStmt" []]])

def rootInterface : Node := .mk { kind := "ObjCInterfaceDecl", name := some (.text "OZObject") } []

def twoTrees : List Node := [functionTree "first" [rootInterface], functionTree "second" []]

theorem root_stem_apart :
    ∃ out, run {} { sources := ["a/OZObject.m", "b/util.m"], outdir := "out" } twoTrees = .ok out ∧
      out.written ≠ [] ∧ out.written.Nodup := by
  obtain ⟨out, hrun, hlength⟩ : ∃ out, run {} { sources := ["a/OZObject.m", "b/util.m"], outdir := "out" }
      twoTrees = .ok out ∧ out.written.length = 6 := toOption_map_eq_some.mp (by decide +kernel)
  have hwritten : out.written ≠ [] := by
    intro hempty
    simp [hempty] at hlength
  obtain ⟨ms, p, hms, hp, -, hiff⟩ := written_nodup_iff_stems_apart hrun hwritten
  obtain ⟨ms', hms', hstems⟩ : ∃ ms, collectAll {} ["a/OZObject.m", "b/util.m"] twoTrees = .ok ms ∧
      (ms.filter (·.standsAlone)).map (·.stem) = ["OZObject", "util"] :=
    toOption_map_eq_some.mp (by decide +kernel)
  obtain ⟨p', hp', hclasses⟩ : ∃ p, planned {} { sources := ["a/OZObject.m", "b/util.m"], outdir := "out" }
      twoTrees = .ok p ∧ p.module.classes.values.map (fun c => (fileStem c, c.isFoundation)) =
        [(.text "OZObject", true)] := toOption_map_eq_some.mp (by decide +kernel)
  cases hms.symm.trans hms'
  cases hp.symm.trans hp'
  have hclass : ∀ c ∈ p.module.classes.values, fileStem c = .text "OZObject" ∧ c.isFoundation = true := by
    intro c hc
    have hmem : (fileStem c, c.isFoundation) ∈
      p.module.classes.values.map fun c => (fileStem c, c.isFoundation) := mem_map_of_mem hc
    rw [hclasses, mem_singleton] at hmem
    exact Prod.ext_iff.mp hmem
  have hnamed : p.IsWellNamed := fun c hc => ⟨"OZObject", (hclass c hc).1, by rw [IsFileName]; decide⟩
  refine ⟨out, hrun, hwritten, (hiff hnamed).mpr ⟨?_, fun m _ _ c hc _ => (hclass c hc).2⟩⟩
  rw [hstems]
  decide

theorem same_stem_overwritten :
    (run {} { sources := ["a/util.m", "b/util.m"], outdir := "out" } twoTrees).toOption.map (·.written) =
      some ["out/Foundation/oz_dispatch.h", "out/Foundation/oz_dispatch.c", "out/Foundation/OZObject_ozh.h",
        "out/Foundation/OZObject_ozm.c", "out/util_ozm.c", "out/util_ozm.c"] := by
  decide +kernel

end ObjcLowering.Program
