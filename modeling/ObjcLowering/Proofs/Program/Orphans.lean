import ObjcLowering.Proofs.Module.Conservation
import ObjcLowering.Proofs.Texts

/-! Sources without a class. -/

namespace ObjcLowering

open Ast Declarations Program List

def Module.standsAlone (m : Module) : Bool :=
  m.hasLooseItems && m.implementedClass?.isNone && m.stem != ""

def IsFileName (name : String) : Prop := '/' ∉ name.toList

theorem nameStem_subset (name : List Char) : nameStem name ⊆ name := by
  unfold nameStem
  dsimp only
  have hdrop : name.reverse.dropWhile (· != '.') ⊆ name.reverse := (dropWhile_sublist _).subset
  cases hback : name.reverse.dropWhile (· != '.') with
  | nil => exact fun c hc => hc
  | cons dot stem =>
    rw [hback] at hdrop
    dsimp only
    split
    · exact fun c hc => hc
    · intro c hc
      exact mem_reverse.mp (hdrop (.tail _ (mem_reverse.mp hc)))

theorem isFileName_sourceStem (path : String) : IsFileName (sourceStem path) := by
  intro hmem
  rw [sourceStem, String.toList_ofList] at hmem
  have hlast := nameStem_subset _ hmem
  cases hparts : (Text.Chars.splitBy '/' path.toList).getLast? with
  | none => simp [getLastD_eq_getLast?, hparts] at hlast
  | some part =>
    rw [getLastD_eq_getLast?, hparts] at hlast
    exact Text.Chars.notMem_of_mem_splitBy (mem_of_getLast? hparts) hlast

structure Module.IsFresh (m : Module) : Prop where
  orphans : m.orphans = []
  stem : IsFileName m.stem

theorem Module.IsFresh.of_sameFiles (hm : m.IsFresh) (h : SameFiles m m') : m'.IsFresh :=
  ⟨h.orphans.trans hm.orphans, h.stem ▸ hm.stem⟩

theorem isFresh_ofTree (fs : Files) (root : Node) : Ensures Module.IsFresh (Module.ofTree fs root) := by
  refine ensures_ofTree (fun hkeeps hm => hm.of_sameFiles hkeeps.files)
    (fun m n hm m' hm' => hm.of_sameFiles (ensures_addFunction m n m' hm').2) ⟨rfl, ?_⟩ fs root
  rw [IsFileName]
  decide

theorem isFresh_withSource (hm : m.IsFresh) (source : String) :
    Ensures Module.IsFresh (withSource fs source m) := by
  unfold withSource
  dsimp only
  exact ensures_then fun _ _ => ensures_pure ⟨hm.orphans, isFileName_sourceStem source⟩

theorem isFresh_of_collectAll (h : collectAll fs sources trees = .ok ms) : ∀ m ∈ ms, m.IsFresh := by
  induction trees generalizing sources ms with
  | nil =>
    cases sources <;> cases h <;> simp
  | cons tree trees ih =>
    cases sources with
    | nil =>
      simp only [collectAll, bind_eq_ok, pure_eq_ok] at h
      obtain ⟨m, hm, rest, hrest, rfl⟩ := h
      exact forall_mem_cons.mpr ⟨isFresh_ofTree fs tree m hm, ih hrest⟩
    | cons source sources =>
      simp only [collectAll, bind_eq_ok, pure_eq_ok] at h
      obtain ⟨m, hm, m', hm', rest, hrest, rfl⟩ := h
      refine forall_mem_cons.mpr ⟨?_, ih hrest⟩
      exact isFresh_withSource (isFresh_ofTree fs tree m hm) source m' hm'

theorem orphans_associate (m : Module) :
    m.associate.orphans = m.orphans ++ if m.standsAlone then [m.looseFile] else [] := by
  unfold Module.associate Module.standsAlone
  cases hloose : m.hasLooseItems with
  | false => simp
  | true =>
    cases hcls : m.implementedClass? with
    | some cls => simp [Module.giveLooseTo, Module.clearLoose]
    | none =>
      by_cases hstem : m.stem = ""
      · simp [Module.giveLooseToOrphan, hstem]
      · simp [Module.giveLooseToOrphan, Module.clearLoose, Module.looseFile, hloose, hstem]

theorem orphans_merge (ms : List Module) : (Module.merge ms).orphans = ms.flatMap (·.orphans) := by
  have hfold : ∀ (ms : List Module) (m : Module),
      (ms.foldl Module.add m).orphans = m.orphans ++ ms.flatMap (·.orphans) := by
    intro ms
    induction ms with
    | nil => simp
    | cons n ms ih =>
      intro m
      rw [foldl_cons, ih, flatMap_cons, ← append_assoc]
      rfl
  exact hfold ms {}

theorem orphans_of_collect (hms : collectAll fs options.sources trees = .ok ms)
    (h : collect fs options trees = .ok m) :
    m.orphans = (ms.filter (·.standsAlone)).map Module.looseFile := by
  have hall : (ms.map Module.associate).flatMap (·.orphans) =
      (ms.filter (·.standsAlone)).map Module.looseFile := by
    have hfresh := isFresh_of_collectAll hms
    clear hms h
    induction ms with
    | nil => rfl
    | cons k ms ih =>
      rw [map_cons, flatMap_cons, orphans_associate, (hfresh k (.head _)).orphans,
        ih fun n hn => hfresh n (.tail _ hn), filter_cons]
      split <;> rfl
  rw [← hall]
  simp only [collect, hms, bind_eq_ok, pure_eq_ok] at h
  obtain ⟨ms', hms', generics, -, rfl⟩ := h
  cases hms'
  dsimp only
  split
  · next k hk => simp [hk]
  · exact orphans_merge _

theorem ensures_throw : Ensures Q (throw f) := by
  intro a ha
  cases ha

theorem SameFiles.bind (h : Ensures (SameFiles m) e) (hnext : ∀ m', Ensures (SameFiles m') (k m')) :
    Ensures (SameFiles m) (e >>= k) :=
  ensures_bind h fun m' hm' m'' hm'' => hm'.trans (hnext m' m'' hm'')

theorem SameFiles.foldl {f : Module → α → Module} (h : ∀ m x, SameFiles m (f m x))
    (xs : List α) (m : Module) : SameFiles m (xs.foldl f m) := by
  induction xs generalizing m with
  | nil => exact .refl m
  | cons x xs ih => exact (h m x).trans (ih _)

theorem sameFiles_validate (m : Module) : Ensures (SameFiles m) (Hierarchy.validate m) := by
  unfold Hierarchy.validate
  refine ensures_then fun _ _ => ?_
  split
  · exact ensures_throw
  · refine ensures_pure (SameFiles.foldl (fun m cls => ?_) _ m)
    split
    · split <;> exact ⟨rfl, rfl⟩
    · exact .refl m

theorem sameFiles_collectInitializers (m : Module) : SameFiles m (Methods.collectInitializers m) := by
  refine SameFiles.foldl (fun m cls => ?_) _ m
  unfold Methods.addInitializer
  split
  · exact .refl m
  · split <;> exact ⟨rfl, rfl⟩

theorem sameFiles_complete (m : Module) : Ensures (SameFiles m) m.complete := by
  unfold Module.complete
  refine SameFiles.bind (sameFiles_validate m) fun m => ?_
  have hsynthesize : Ensures (SameFiles m) (Properties.synthesize m) :=
    ensures_then fun _ _ => ensures_pure ⟨rfl, rfl⟩
  refine SameFiles.bind hsynthesize fun m => ?_
  have hassign : Ensures (SameFiles m) (Hierarchy.assignIds (Methods.checkDuplicates m)) :=
    ensures_then fun _ _ => ensures_pure ⟨rfl, rfl⟩
  refine SameFiles.bind hassign fun m => ?_
  have hclassify : Ensures (SameFiles m) (Methods.classify (Hierarchy.computeDepths m)) :=
    ensures_then fun _ _ => ensures_then fun _ _ => ensures_pure ⟨rfl, rfl⟩
  refine SameFiles.bind hclassify fun m => ?_
  have hconform : Ensures (SameFiles m) (Methods.checkConformance m) :=
    ensures_then fun _ _ => ensures_pure ⟨rfl, rfl⟩
  refine SameFiles.bind hconform fun m => ?_
  have harguments : Ensures (SameFiles m) (TypeArguments.validate m) :=
    ensures_then fun _ _ => ensures_then fun _ _ => ensures_pure ⟨rfl, rfl⟩
  refine SameFiles.bind harguments fun m => ?_
  exact ensures_pure (sameFiles_collectInitializers m)

theorem sameFiles_associateAll (m : Module) : SameFiles m m.associateAll := by
  rw [ItemKind.associateAll_eq]
  split
  · cases ItemKind.primaryClass? m <;> exact ⟨rfl, rfl⟩
  · exact .refl m

theorem sameFiles_withSpinLock (m : Module) (root : Name) : Ensures (SameFiles m) (m.withSpinLock root) := by
  unfold Module.withSpinLock
  refine ensures_then fun counts _ => ?_
  split
  · exact ensures_pure (.refl m)
  · exact ensures_pure ⟨rfl, rfl⟩

def planned (fs : Files) (options : Options) (trees : List Node) : Except Fault Plan := do
  let m ← (← collect fs options trees).complete
  prepare options (← poolSizes options.poolSizes) m

theorem orphans_of_prepare (h : prepare options sizes m = .ok p) : p.module.orphans = m.orphans := by
  simp only [prepare, bind_eq_ok, pure_eq_ok] at h
  obtain ⟨locked, hlocked, owning, -, counts, -, rfl⟩ := h
  exact ((sameFiles_associateAll m).trans (sameFiles_withSpinLock _ _ locked hlocked)).orphans

theorem orphans_of_planned (h : planned fs options trees = .ok p) :
    ∃ ms, collectAll fs options.sources trees = .ok ms ∧ (∀ m ∈ ms, m.IsFresh) ∧
      p.module.orphans = (ms.filter (·.standsAlone)).map Module.looseFile := by
  simp only [planned, bind_eq_ok] at h
  obtain ⟨m, hm, m', hm', sizes, -, hp⟩ := h
  have hm₀ := hm
  simp only [collect, bind_eq_ok] at hm
  obtain ⟨ms, hms, -⟩ := hm
  refine ⟨ms, hms, isFresh_of_collectAll hms, ?_⟩
  rw [orphans_of_prepare hp, (sameFiles_complete m m' hm').orphans, orphans_of_collect hms hm₀]

theorem written_of_run (h : run fs options trees = .ok out) (hwritten : out.written ≠ []) :
    ∃ p files e, planned fs options trees = .ok p ∧ p.emit files = .ok e ∧ out.written = e.written := by
  unfold run at h
  dsimp only at h
  by_cases hempty : trees.isEmpty = true
  · rw [if_pos hempty] at h
    cases h
  rw [if_neg hempty] at h
  simp only [bind_eq_ok] at h
  obtain ⟨-, -, m, hm, h⟩ := h
  -- a run that stops before the output writes nothing
  have hstopped : ∀ said lines, (pure { exit := 1, messages := Output.unlines (said ++ lines), files := fs } :
      Except Fault Outcome) ≠ .ok out := by
    intro said lines hout
    cases hout
    exact hwritten rfl
  cases hm' : m.complete with
  | error f =>
    rw [hm'] at h
    cases f with
    | inheritanceCycle start again => exact absurd h (hstopped _ _)
    | _ => cases h
  | ok m' =>
    rw [hm'] at h
    dsimp only at h
    split at h
    · exact absurd h (hstopped _ _)
    split at h
    · exact absurd h (hstopped _ _)
    simp only [generate, bind_eq_ok] at h
    obtain ⟨sizes, hsizes, files, -, p, hp, e, he, h⟩ := h
    refine ⟨p, files, e, ?_, he, ?_⟩
    · simp only [planned, bind_eq_ok]
      exact ⟨m, hm, m', hm', sizes, hsizes, hp⟩
    split at h
    · cases h
      rfl
    split at h
    · cases h
      rfl
    · simp only [bind_eq_ok, pure_eq_ok] at h
      obtain ⟨listed, -, rfl⟩ := h
      rfl

end ObjcLowering
