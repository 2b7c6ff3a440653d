import ObjcLowering.Proofs.Program.Writing

/-! Outcomes of runs. -/

namespace ObjcLowering

open Ast List

variable {m m' : Module}

structure Module.SaysMore (m m' : Module) : Prop where
  errors : m.errors <+: m'.errors
  diagnostics : m.diagnostics <+: m'.diagnostics

namespace Module.SaysMore

theorem refl (m : Module) : m.SaysMore m := ⟨prefix_rfl, prefix_rfl⟩

theorem trans (h : m.SaysMore m') (h' : m'.SaysMore m'') : m.SaysMore m'' :=
  ⟨h.errors.trans h'.errors, h.diagnostics.trans h'.diagnostics⟩

theorem bind (h : Ensures m.SaysMore e) (hnext : ∀ m' : Module, Ensures m'.SaysMore (k m')) :
    Ensures m.SaysMore (e >>= k) :=
  ensures_bind h fun m' hm' m'' hm'' => hm'.trans (hnext m' m'' hm'')

theorem foldl {f : Module → α → Module} (h : ∀ m x, Module.SaysMore m (f m x)) (xs : List α)
    (m : Module) : m.SaysMore (xs.foldl f m) := by
  induction xs generalizing m with
  | nil => exact .refl m
  | cons x xs ih => exact (h m x).trans (ih _)

theorem warn (m : Module) (text : String) : m.SaysMore (m.warn text) :=
  ⟨prefix_rfl, prefix_append _ _⟩

end Module.SaysMore

theorem saysMore_validate (m : Module) : Ensures m.SaysMore (Hierarchy.validate m) := by
  unfold Hierarchy.validate
  refine ensures_then fun _ _ => ?_
  split
  · exact ensures_throw
  · refine ensures_pure (Module.SaysMore.foldl (fun m cls => ?_) _ m)
    split
    · split
      · exact .refl m
      · exact .warn m _
    · exact .refl m

theorem saysMore_collectInitializers (m : Module) : m.SaysMore (Methods.collectInitializers m) := by
  refine Module.SaysMore.foldl (fun m cls => ?_) _ m
  unfold Methods.addInitializer
  split
  · exact .refl m
  · dsimp only
    split
    · exact ⟨prefix_rfl, prefix_append _ _⟩
    · exact ⟨prefix_rfl, prefix_rfl⟩

theorem saysMore_complete (m : Module) : Ensures m.SaysMore m.complete := by
  unfold Module.complete
  refine Module.SaysMore.bind (saysMore_validate m) fun m => ?_
  have hsynthesize : Ensures m.SaysMore (Properties.synthesize m) :=
    ensures_then fun _ _ => ensures_pure ⟨prefix_rfl, prefix_append _ _⟩
  refine Module.SaysMore.bind hsynthesize fun m => ?_
  have hassign : Ensures m.SaysMore (Hierarchy.assignIds (Methods.checkDuplicates m)) :=
    ensures_then fun _ _ => ensures_pure ⟨prefix_append _ _, prefix_rfl⟩
  refine Module.SaysMore.bind hassign fun m => ?_
  have hclassify : Ensures m.SaysMore (Methods.classify (Hierarchy.computeDepths m)) :=
    ensures_then fun _ _ => ensures_then fun _ _ => ensures_pure ⟨prefix_rfl, prefix_rfl⟩
  refine Module.SaysMore.bind hclassify fun m => ?_
  have hconform : Ensures m.SaysMore (Methods.checkConformance m) :=
    ensures_then fun _ _ => ensures_pure ⟨prefix_append _ _, prefix_rfl⟩
  refine Module.SaysMore.bind hconform fun m => ?_
  have harguments : Ensures m.SaysMore (TypeArguments.validate m) :=
    ensures_then fun _ _ => ensures_then fun _ _ =>
      ensures_pure ⟨prefix_append _ _, prefix_rfl⟩
  refine Module.SaysMore.bind harguments fun m => ?_
  exact ensures_pure (saysMore_collectInitializers m)

theorem said_associate {f : Module → List String}
    (hf : ∀ m n : Module, n.errors = m.errors → n.diagnostics = m.diagnostics → f n = f m) (m : Module) :
    f m.associate = f m := by
  unfold Module.associate
  split
  · rfl
  split
  · exact hf _ _ rfl rfl
  · unfold Module.giveLooseToOrphan
    split
    · exact hf _ _ rfl rfl
    · rfl

namespace Program

theorem said_of_collect {f : Module → List String} (hempty : f {} = [])
    (hadd : ∀ m n : Module, f (m.add n) = f m ++ f n)
    (hf : ∀ m n : Module, n.errors = m.errors → n.diagnostics = m.diagnostics → f n = f m)
    (hms : collectAll fs options.sources trees = .ok ms)
    (h : collect fs options trees = .ok m) : f m = ms.flatMap f := by
  have hall : (ms.map Module.associate).flatMap f = ms.flatMap f := by
    rw [flatMap_map]
    exact congrArg (ms.flatMap ·) (funext (said_associate hf))
  have hmerge : ∀ (ms : List Module) (m : Module), f (ms.foldl Module.add m) = f m ++ ms.flatMap f := by
    intro ms
    induction ms with
    | nil => simp
    | cons n ms ih =>
      intro m
      rw [foldl_cons, ih, hadd, flatMap_cons, append_assoc]
  rw [← hall]
  simp only [collect, hms, bind_eq_ok, pure_eq_ok] at h
  obtain ⟨ms', hms', generics, -, rfl⟩ := h
  cases hms'
  have hgenerics : ∀ (m : Module) generics, f { m with generics } = f m := fun m _ => hf m _ rfl rfl
  rw [hgenerics]
  split
  · next k hk => simp [hk]
  · rw [Module.merge, hmerge, hempty, nil_append]

def completed (fs : Files) (options : Options) (trees : List Node) : Except Fault Module := do
  (← collect fs options trees).complete

def emission (fs : Files) (options : Options) (trees : List Node) : Except Fault Emission := do
  (← planned fs options trees).emit (← makeDirectories options fs)

def SaidBefore (fs : Files) (options : Options) (trees : List Node) (f : Module → List String) : Prop :=
  (∃ ms, collectAll fs options.sources trees = .ok ms ∧ ∃ m ∈ ms, f m ≠ []) ∨
    ∃ m, completed fs options trees = .ok m ∧ f m ≠ []

def SaidInOutput (fs : Files) (options : Options) (trees : List Node) (f : Emission → List String) :
    Prop :=
  ∃ e, emission fs options trees = .ok e ∧ f e ≠ []

def InheritsInCircle (fs : Files) (options : Options) (trees : List Node) : Prop :=
  ∃ m start again, collect fs options trees = .ok m ∧
    m.complete = .error (.inheritanceCycle start again)

def IsClean (options : Options) (diagnostics errors : List String) : Prop :=
  errors = [] ∧ (options.isStrict = true → diagnostics = [])

structure Untouched (fs : Files) (out : Outcome) : Prop where
  exit : out.exit = 1
  written : out.written = []
  files : out.files = fs
  manifest : out.manifest = none

inductive Course (fs : Files) (options : Options) (trees : List Node) (out : Outcome) : Prop
  | circle : InheritsInCircle fs options trees → Untouched fs out → Course fs options trees out
  | unclean {m : Module} : completed fs options trees = .ok m →
      ¬ IsClean options m.diagnostics m.errors → Untouched fs out → Course fs options trees out
  | spoilt {m : Module} {e : Emission} : completed fs options trees = .ok m →
      IsClean options m.diagnostics m.errors → emission fs options trees = .ok e →
      ¬ IsClean options e.diagnostics e.errors → out.exit = 1 → out.written = e.written →
      out.files = e.files → out.manifest = none → Course fs options trees out
  | done {m : Module} {e : Emission} : completed fs options trees = .ok m →
      IsClean options m.diagnostics m.errors → emission fs options trees = .ok e →
      IsClean options e.diagnostics e.errors → out.exit = 0 → out.written = e.written →
      out.manifest = manifestText options e.written →
      writeManifest options e.files out.manifest = .ok out.files → Course fs options trees out

theorem not_isClean_of_errors (h : (!errors.isEmpty) = true) : ¬ IsClean options diagnostics errors := by
  intro hclean
  rw [hclean.1] at h
  cases h

theorem not_isClean_of_diagnostics (h : (options.isStrict && !diagnostics.isEmpty) = true) :
    ¬ IsClean options diagnostics errors := by
  intro hclean
  rw [Bool.and_eq_true] at h
  rw [hclean.2 h.1] at h
  cases h.2

theorem isClean_of_not (herrors : ¬ (!errors.isEmpty) = true)
    (hdiagnostics : ¬ (options.isStrict && !diagnostics.isEmpty) = true) :
    IsClean options diagnostics errors := by
  refine ⟨by simpa using herrors, fun hstrict => ?_⟩
  simpa [hstrict] using hdiagnostics

theorem course_of_run (h : run fs options trees = .ok out) : Course fs options trees out := by
  unfold run at h
  dsimp only at h
  by_cases hempty : trees.isEmpty = true
  · rw [if_pos hempty] at h
    cases h
  rw [if_neg hempty] at h
  simp only [bind_eq_ok] at h
  obtain ⟨-, -, m, hm, h⟩ := h
  cases hm' : m.complete with
  | error f =>
    rw [hm'] at h
    cases f with
    | inheritanceCycle start again =>
      cases h
      exact .circle ⟨m, start, again, hm, hm'⟩ ⟨rfl, rfl, rfl, rfl⟩
    | _ => cases h
  | ok m' =>
    have hcompleted : completed fs options trees = .ok m' := bind_eq_ok.mpr ⟨m, hm, hm'⟩
    rw [hm'] at h
    dsimp only at h
    split at h
    · next herrors =>
      cases h
      exact .unclean hcompleted (not_isClean_of_errors herrors) ⟨rfl, rfl, rfl, rfl⟩
    next herrors =>
    split at h
    · next hdiagnostics =>
      cases h
      exact .unclean hcompleted (not_isClean_of_diagnostics hdiagnostics) ⟨rfl, rfl, rfl, rfl⟩
    next hdiagnostics =>
    have hclean := isClean_of_not herrors hdiagnostics
    simp only [generate, bind_eq_ok] at h
    obtain ⟨sizes, hsizes, files, hfiles, p, hp, e, he, h⟩ := h
    have hemission : emission fs options trees = .ok e := by
      simp only [emission, planned, bind_eq_ok]
      exact ⟨p, ⟨m, hm, m', hm', sizes, hsizes, hp⟩, files, hfiles, he⟩
    split at h
    · next hfailed =>
      cases h
      exact .spoilt hcompleted hclean hemission (not_isClean_of_errors hfailed) rfl rfl rfl rfl
    next hfailed =>
    split at h
    · next hwarned =>
      cases h
      exact .spoilt hcompleted hclean hemission (not_isClean_of_diagnostics hwarned) rfl rfl rfl rfl
    · next hwarned =>
      simp only [bind_eq_ok, pure_eq_ok] at h
      obtain ⟨listed, hlisted, rfl⟩ := h
      exact .done hcompleted hclean hemission (isClean_of_not hfailed hwarned) rfl rfl rfl hlisted

theorem ne_nil_of_saidBefore (hempty : f {} = []) (hadd : ∀ m n : Module, f (m.add n) = f m ++ f n)
    (hf : ∀ m n : Module, n.errors = m.errors → n.diagnostics = m.diagnostics → f n = f m)
    (hmore : ∀ m n : Module, m.SaysMore n → f m <+: f n) (h : SaidBefore fs options trees f)
    (hcompleted : completed fs options trees = .ok m) : f m ≠ [] := by
  rcases h with ⟨ms, hms, k, hk, hne⟩ | ⟨m', hm', hne⟩
  · obtain ⟨m₀, hm₀, hm⟩ := bind_eq_ok.mp hcompleted
    intro hnil
    have hprefix := hmore m₀ m (saysMore_complete m₀ m hm)
    rw [hnil, prefix_nil, said_of_collect hempty hadd hf hms hm₀] at hprefix
    exact hne (flatMap_eq_nil_iff.mp hprefix k hk)
  · cases hm'.symm.trans hcompleted
    exact hne

section

variable (hcompleted : completed fs options trees = .ok m)

include hcompleted

theorem not_saidBefore_errors (hnil : m.errors = []) :
    ¬ SaidBefore fs options trees (·.errors) := fun h =>
  ne_nil_of_saidBefore rfl (fun _ _ => rfl) (fun _ _ he _ => he) (fun _ _ h => h.errors) h hcompleted hnil

theorem not_saidBefore_diagnostics
    (hnil : m.diagnostics = []) : ¬ SaidBefore fs options trees (·.diagnostics) := fun h =>
  ne_nil_of_saidBefore rfl (fun _ _ => rfl) (fun _ _ _ hd => hd) (fun _ _ h => h.diagnostics) h hcompleted
    hnil

theorem not_inheritsInCircle :
    ¬ InheritsInCircle fs options trees := by
  rintro ⟨m₀, start, again, hm₀, hcycle⟩
  obtain ⟨m₁, hm₁, hm⟩ := bind_eq_ok.mp hcompleted
  cases hm₀.symm.trans hm₁
  rw [hcycle] at hm
  cases hm

/-- A run is stopped by what is recorded before its output: errors, a circle, and warnings where
these count as errors. -/
def StopsBefore (fs : Files) (options : Options) (trees : List Node) : Prop :=
  SaidBefore fs options trees (·.errors) ∨ InheritsInCircle fs options trees ∨
    (options.isStrict = true ∧ SaidBefore fs options trees (·.diagnostics))

theorem not_stopsBefore
    (hclean : IsClean options m.diagnostics m.errors) : ¬ StopsBefore fs options trees := by
  rintro (herrors | hcircle | ⟨hstrict, hdiagnostics⟩)
  · exact not_saidBefore_errors hcompleted hclean.1 herrors
  · exact not_inheritsInCircle hcompleted hcircle
  · exact not_saidBefore_diagnostics hcompleted (hclean.2 hstrict) hdiagnostics

end

def SpoiltInOutput (fs : Files) (options : Options) (trees : List Node) : Prop :=
  SaidInOutput fs options trees (·.errors) ∨
    (options.isStrict = true ∧ SaidInOutput fs options trees (·.diagnostics))

theorem not_isClean_iff : ¬ IsClean options diagnostics errors ↔
      errors ≠ [] ∨ (options.isStrict = true ∧ diagnostics ≠ []) := by
  unfold IsClean
  grind

theorem exit_eq_zero_iff (h : Course fs options trees out) :
    out.exit = 0 ↔ ¬ StopsBefore fs options trees ∧ ¬ SpoiltInOutput fs options trees := by
  cases h with
  | circle hcircle hout =>
    refine iff_of_false (by simp [hout.exit]) fun hclean => hclean.1 (.inr (.inl hcircle))
  | unclean hcompleted hunclean hout =>
    refine iff_of_false (by simp [hout.exit]) fun hclean => hclean.1 ?_
    rcases not_isClean_iff.mp hunclean with herrors | ⟨hstrict, hdiagnostics⟩
    · exact .inl (.inr ⟨_, hcompleted, herrors⟩)
    · exact .inr (.inr ⟨hstrict, .inr ⟨_, hcompleted, hdiagnostics⟩⟩)
  | spoilt _ _ hemission hspoilt hexit =>
    refine iff_of_false (by simp [hexit]) fun hclean => hclean.2 ?_
    rcases not_isClean_iff.mp hspoilt with herrors | ⟨hstrict, hdiagnostics⟩
    · exact .inl ⟨_, hemission, herrors⟩
    · exact .inr ⟨hstrict, _, hemission, hdiagnostics⟩
  | done hcompleted hclean hemission hgood hexit =>
    refine iff_of_true hexit ⟨not_stopsBefore hcompleted hclean, ?_⟩
    rintro (⟨e, he, herrors⟩ | ⟨hstrict, e, he, hdiagnostics⟩)
    · cases he.symm.trans hemission
      exact herrors hgood.1
    · cases he.symm.trans hemission
      exact hdiagnostics (hgood.2 hstrict)

def linesOf (text : String) : List String := (Text.splitBy '\n' text).dropLast

theorem linesOf_unlines (h : ∀ line ∈ lines, '\n' ∉ line.toList) :
    linesOf (Output.unlines lines) = lines := by
  have hsplit : Text.Chars.splitBy '\n' (Output.unlines lines).toList =
      lines.map String.toList ++ [[]] := by
    induction lines with
    | nil => rfl
    | cons line lines ih =>
      have htext : (Output.unlines (line :: lines)).toList =
          line.toList ++ '\n' :: (Output.unlines lines).toList := by
        simp [Output.unlines, String.join_cons]
      rw [htext, (Text.Chars.splitBy_append (h line (.head _)) _).2, ih fun l hl => h l (.tail _ hl)]
      rfl
  rw [linesOf, Text.splitBy, hsplit, map_append, map_map]
  simp [Function.comp_def]

theorem notMem_of_mem_linesOf (h : line ∈ linesOf text) : '\n' ∉ line.toList := by
  obtain ⟨part, hpart, rfl⟩ := mem_map.mp ((dropLast_subset _) h)
  rw [String.toList_ofList]
  exact Text.Chars.notMem_of_mem_splitBy hpart

theorem mem_linesOf_unlines_iff : (∀ line, line ∈ linesOf (Output.unlines paths) ↔ line ∈ paths) ↔
      ∀ path ∈ paths, '\n' ∉ path.toList := by
  constructor
  · intro h path hpath
    exact notMem_of_mem_linesOf ((h path).mpr hpath)
  · intro h line
    rw [linesOf_unlines h]

/-- After a run, what was written is there, the list of files too where there is one, and all other
files are as before. -/
structure Accounts (fs : Files) (options : Options) (out : Outcome) : Prop where
  wrote : ∀ path ∈ out.written, out.files.isFile (.ofText path) = true
  listed : ∀ text, out.manifest = some text → ∃ place,
    out.files.placeOf options.manifest = .ok place ∧ out.files.fileAt? place = some text
  kept : ∀ place, (∀ path ∈ out.written, out.files.place (.ofText path) ≠ .ok place) →
    (out.manifest.isSome = true → out.files.placeOf options.manifest ≠ .ok place) →
    out.files.fileAt? place = fs.fileAt? place

theorem isFile_of_place {files : Files} (h : ∃ place, files.place p = .ok place ∧
    (files.fileAt? place).isSome = true) : files.isFile p = true := by
  obtain ⟨place, hplace, hsome⟩ := h
  rw [Files.isFile, Files.find?, hplace]
  exact hsome

theorem tracks_emission (h : emission fs options trees = .ok e) : Tracks fs e.written e.files := by
  simp only [emission, makeDirectories, bind_eq_ok] at h
  obtain ⟨p, -, files, ⟨files₁, h₁, h₂⟩, he⟩ := h
  exact tracks_emit ((Files.fileAt?_makeDirectory h₂).trans (Files.fileAt?_makeDirectory h₁)) he

theorem Untouched.accounts (h : Untouched fs out) : Accounts fs options out := by
  refine ⟨fun path hpath => ?_, fun text htext => ?_, fun place _ _ => ?_⟩
  · rw [h.written] at hpath
    cases hpath
  · rw [h.manifest] at htext
    cases htext
  · rw [h.files]

theorem accounts_of_course (h : Course fs options trees out) : Accounts fs options out := by
  cases h with
  | circle _ hout => exact hout.accounts
  | unclean _ _ hout => exact hout.accounts
  | @spoilt _ e _ _ hemission _ _ hwritten hfiles hmanifest =>
    have htracks := tracks_emission hemission
    rw [← hwritten, ← hfiles] at htracks
    refine ⟨fun path hpath => isFile_of_place (htracks.wrote path hpath), fun text htext => ?_,
      fun place hfree _ => htracks.kept place hfree⟩
    rw [hmanifest] at htext
    cases htext
  | @done _ e _ _ hemission _ _ hwritten hmanifest hlisted =>
    have htracks := tracks_emission hemission
    rw [← hwritten] at htracks
    cases htext : out.manifest with
    | none =>
      have hfiles : out.files = e.files := by
        rw [htext] at hlisted
        exact (Except.ok.inj hlisted).symm
      rw [← hfiles] at htracks
      refine ⟨fun path hpath => isFile_of_place (htracks.wrote path hpath), fun text h => ?_,
        fun place hfree _ => htracks.kept place hfree⟩
      rw [htext] at h
      cases h
    | some text =>
      rw [htext, writeManifest, Files.writeTo] at hlisted
      split at hlisted
      · obtain ⟨-, -, hlisted⟩ := bind_eq_ok.mp hlisted
        cases hlisted
      obtain ⟨place, hplace, hlisted⟩ := bind_eq_ok.mp hlisted
      have hwrote := Files.wrote_of_writeAt hlisted
      have hthere := Files.placeOf_mono hwrote.directories hplace
      obtain ⟨hold, hkept⟩ := htracks.wrote_at hwrote
      refine ⟨fun path hpath => isFile_of_place (hold path hpath), fun text' h => ?_,
        fun other hfree hlist => hkept other ?_ hfree⟩
      · rw [htext] at h
        cases h
        exact ⟨place, hthere, hwrote.here⟩
      · rintro rfl
        exact hlist (by rw [htext]; rfl) hthere

/-- The exit code, the files and the list of files agree. -/
theorem exit_files_manifest_agree (h : run fs options trees = .ok out) :
    (StopsBefore fs options trees → out.exit = 1 ∧ out.written = [] ∧ out.files = fs) ∧
    (out.exit = 0 ∨ out.exit = 1) ∧
    (out.exit = 0 ↔ ¬ StopsBefore fs options trees ∧ ¬ SpoiltInOutput fs options trees) ∧
    (out.manifest.isSome = true ↔ out.exit = 0 ∧ options.manifest ≠ "") ∧
    (∀ text, out.manifest = some text →
      ((∀ line, line ∈ linesOf text ↔ line ∈ out.written) ↔ ∀ path ∈ out.written, '\n' ∉ path.toList)) ∧
    Accounts fs options out := by
  have hcourse := course_of_run h
  refine ⟨?_, ?_, exit_eq_zero_iff hcourse, ?_, ?_, accounts_of_course hcourse⟩
  · intro hstops
    cases hcourse with
    | circle _ hout => exact ⟨hout.exit, hout.written, hout.files⟩
    | unclean _ _ hout => exact ⟨hout.exit, hout.written, hout.files⟩
    | spoilt hcompleted hclean => exact absurd hstops (not_stopsBefore hcompleted hclean)
    | done hcompleted hclean => exact absurd hstops (not_stopsBefore hcompleted hclean)
  · cases hcourse with
    | circle _ hout => exact .inr hout.exit
    | unclean _ _ hout => exact .inr hout.exit
    | spoilt _ _ _ _ hexit => exact .inr hexit
    | done _ _ _ _ hexit => exact .inl hexit
  · cases hcourse with
    | circle _ hout => simp [hout.exit, hout.manifest]
    | unclean _ _ hout => simp [hout.exit, hout.manifest]
    | spoilt _ _ _ _ hexit _ _ hmanifest => simp [hexit, hmanifest]
    | done _ _ _ _ hexit _ hmanifest => simp [hexit, hmanifest, manifestText]
  · intro text htext
    cases hcourse with
    | circle _ hout => simp [hout.manifest] at htext
    | unclean _ _ hout => simp [hout.manifest] at htext
    | spoilt _ _ _ _ _ _ _ hmanifest => simp [hmanifest] at htext
    | done _ _ _ _ _ hwritten hmanifest =>
      rw [hmanifest, ← hwritten, manifestText] at htext
      split at htext
      · cases htext
      · cases htext
        exact mem_linesOf_unlines_iff

def listing (source : String) : Options :=
  { sources := [source], outdir := "out", manifest := "files.txt" }

theorem files_listed :
    ∃ out text, run {} (listing "util.m") [functionTree "first" []] = .ok out ∧ out.exit = 0 ∧
      out.manifest = some text ∧ (∀ line, line ∈ linesOf text ↔ line ∈ out.written) ∧
      out.files.isFile (.ofText "out/util_ozm.c") = true := by
  obtain ⟨out, hrun, hout⟩ : ∃ out, run {} (listing "util.m") [functionTree "first" []] = .ok out ∧
      (out.exit, out.written) = (0, ["out/Foundation/oz_dispatch.h", "out/Foundation/oz_dispatch.c",
        "out/util_ozm.c"]) := toOption_map_eq_some.mp (by decide +kernel)
  obtain ⟨hexit, hwritten⟩ := Prod.ext_iff.mp hout
  dsimp only at hexit hwritten
  obtain ⟨-, -, -, hlisted, hlines, haccounts⟩ := exit_files_manifest_agree hrun
  obtain ⟨text, htext⟩ := Option.isSome_iff_exists.mp (hlisted.mpr ⟨hexit, by decide⟩)
  refine ⟨out, text, hrun, hexit, htext, (hlines text htext).mpr ?_, haccounts.wrote _ ?_⟩
  · rw [hwritten]
    decide
  · simp [hwritten]

theorem line_end_splits_path :
    (run {} (listing "a\nb.m") [functionTree "first" []]).toOption.map (fun out =>
      (out.exit, out.written, out.manifest.map linesOf)) =
        some (0, ["out/Foundation/oz_dispatch.h", "out/Foundation/oz_dispatch.c", "out/a\nb_ozm.c"],
          some ["out/Foundation/oz_dispatch.h", "out/Foundation/oz_dispatch.c", "out/a", "b_ozm.c"]) := by
  decide +kernel

end Program

end ObjcLowering
