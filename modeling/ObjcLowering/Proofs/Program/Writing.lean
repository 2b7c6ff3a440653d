import ObjcLowering.Proofs.Program.Paths

/-! Writing files. -/

namespace ObjcLowering

namespace Files

variable {fs fs' : Files} {place other : List String}

def DirectoriesIn (fs fs' : Files) : Prop :=
  ∀ place, fs.hasDirectory place = true → fs'.hasDirectory place = true

theorem walk_mono (h : DirectoriesIn fs fs')
    (hwalk : fs.walk back parts = .ok place) : fs'.walk back parts = .ok place := by
  induction parts generalizing back with
  | nil => exact hwalk
  | cons part parts ih =>
    rw [walk] at hwalk ⊢
    split at hwalk
    · next hup => rw [if_pos hup, ih hwalk]
    next hup =>
    rw [if_neg hup]
    split at hwalk
    · next hhere => rw [if_pos hhere, ih hwalk]
    next hhere =>
    rw [if_neg hhere]
    split at hwalk
    · cases hwalk
    next hlong =>
    rw [if_neg hlong]
    split at hwalk
    · next hdir =>
      have hdir' : (parts.isEmpty || fs'.hasDirectory (part :: back).reverse) = true := by
        rw [Bool.or_eq_true] at hdir ⊢
        exact hdir.imp id (h _)
      rw [if_pos hdir', ih hwalk]
    · split at hwalk <;> cases hwalk

theorem place_mono (h : DirectoriesIn fs fs') (hplace : fs.place p = .ok place) :
    fs'.place p = .ok place := by
  unfold Files.place at hplace ⊢
  split at hplace
  · next hparts => rw [if_pos hparts, walk_mono h hplace]
  · cases hplace

theorem placeOf_mono (h : DirectoriesIn fs fs') (hplace : fs.placeOf s = .ok place) :
    fs'.placeOf s = .ok place := by
  unfold Files.placeOf at hplace ⊢
  dsimp only at hplace ⊢
  split at hplace
  · cases hplace
  next hempty =>
  rw [if_neg hempty]
  split at hplace
  · cases hplace
  next hbad =>
  rw [if_neg hbad]
  exact walk_mono h hplace

theorem steps_ofSteps (place : List String) : (Path.ofSteps place).steps = place := by
  unfold Path.ofSteps
  split <;> rfl

theorem find?_setText (place other : List String) (text : String) (entries : List (Path × String)) :
    ((setText place text entries).find? fun e => e.1.steps == other).map (·.2) =
      if other = place then some text
      else (entries.find? fun e => e.1.steps == other).map (·.2) := by
  induction entries with
  | nil =>
    by_cases h : other = place
    · simp [setText, steps_ofSteps, h]
    · simp [setText, steps_ofSteps, h, Ne.symm h]
  | cons e entries ih =>
    obtain ⟨p, old⟩ := e
    rw [setText]
    by_cases hp : p.steps = place
    · by_cases h : other = place
      · simp [hp, h]
      · simp [hp, h, Ne.symm h]
    · by_cases h : p.steps = other
      · have hne : other ≠ place := fun heq => hp (h.trans heq)
        simp [h, hne]
      · simpa [hp, h] using ih

theorem any_setText {q : Path → Bool} {entries : List (Path × String)}
    (h : (entries.any fun e => q e.1) = true) :
    ((setText place text entries).any fun e => q e.1) = true := by
  induction entries with
  | nil => simp at h
  | cons e entries ih =>
    obtain ⟨p, old⟩ := e
    rw [setText]
    rw [List.any_cons, Bool.or_eq_true] at h
    split
    · simpa using h
    · rw [List.any_cons, Bool.or_eq_true]
      exact h.imp id ih

structure Wrote (fs : Files) (place : List String) (text : String) (fs' : Files) : Prop where
  here : fs'.fileAt? place = some text
  others : ∀ other, other ≠ place → fs'.fileAt? other = fs.fileAt? other
  directories : DirectoriesIn fs fs'

theorem wrote_of_writeAt (h : fs.writeAt place text = .ok fs') : Wrote fs place text fs' := by
  unfold writeAt at h
  split at h
  · cases h
  cases h
  have hfile : ∀ other, fileAt? { fs with entries := setText place text fs.entries } other =
      if other = place then some text else fs.fileAt? other := fun other =>
    find?_setText place other text fs.entries
  refine ⟨?_, fun other hother => ?_, fun dir hdir => ?_⟩
  · rw [hfile, if_pos rfl]
  · rw [hfile, if_neg hother]
  · unfold hasDirectory at hdir ⊢
    rw [Bool.or_eq_true] at hdir ⊢
    exact hdir.imp id fun h => any_setText (q := fun p =>
      dir.isPrefixOf p.steps && decide (dir.length < p.steps.length)) h

theorem Wrote.isSome (h : Wrote fs place text fs') (hother : (fs.fileAt? other).isSome = true) :
    (fs'.fileAt? other).isSome = true := by
  by_cases heq : other = place
  · rw [heq, h.here]
    rfl
  · rwa [h.others other heq]

theorem fileAt?_makeDirectory (h : fs.makeDirectory p = .ok fs') : fs'.fileAt? = fs.fileAt? := by
  unfold makeDirectory at h
  dsimp only at h
  split at h
  · cases h
  split at h
  · cases h
  · cases h
    rfl

end Files

namespace Program

open Files List

structure Tracks (fs : Files) (written : List String) (files : Files) : Prop where
  wrote : ∀ path ∈ written, ∃ place, files.place (.ofText path) = .ok place ∧
    (files.fileAt? place).isSome = true
  kept : ∀ place, (∀ path ∈ written, files.place (.ofText path) ≠ .ok place) →
    files.fileAt? place = fs.fileAt? place

variable {p : Plan} {e e' : Emission}

theorem Tracks.wrote_at (h : Tracks fs written files) {place : List String}
    (hwrote : Wrote files place text files') :
    (∀ path ∈ written, ∃ place, files'.place (.ofText path) = .ok place ∧
      (files'.fileAt? place).isSome = true) ∧
    ∀ other, other ≠ place → (∀ path ∈ written, files'.place (.ofText path) ≠ .ok other) →
      files'.fileAt? other = fs.fileAt? other := by
  constructor
  · intro path hpath
    obtain ⟨old, hold, hsome⟩ := h.wrote path hpath
    exact ⟨old, place_mono hwrote.directories hold, hwrote.isSome hsome⟩
  · intro other hother hfree
    rw [hwrote.others other hother]
    exact h.kept other fun path hpath hplace =>
      hfree path hpath (place_mono hwrote.directories hplace)

theorem Tracks.write (h : Tracks fs e.written e.files) {path text : String}
    (hwrite : e.write path text = .ok e') : Tracks fs e'.written e'.files := by
  simp only [Emission.write, Files.write, bind_eq_ok, pure_eq_ok] at hwrite
  obtain ⟨files, ⟨place, hplace, hfiles⟩, rfl⟩ := hwrite
  have hwrote := wrote_of_writeAt hfiles
  have hthere := place_mono hwrote.directories hplace
  obtain ⟨hold, hkept⟩ := h.wrote_at hwrote
  refine ⟨fun q hq => ?_, fun other hfree => ?_⟩
  · rcases mem_append.mp hq with hq | hq
    · exact hold q hq
    · rw [mem_singleton.mp hq]
      exact ⟨place, hthere, by rw [hwrote.here]; rfl⟩
  · refine hkept other ?_ fun q hq => hfree q (mem_append_left _ hq)
    rintro rfl
    exact hfree path (mem_append_right _ (.head _)) hthere

inductive Emits (start : Emission) : Emission → Prop
  | start : Emits start start
  | write {e e' : Emission} {path text : String} :
      Emits start e → e.write path text = .ok e' → Emits start e'
  | say {e : Emission} {diagnostics errors : List String} :
      Emits start e → Emits start (e.say diagnostics errors)

theorem Emits.tracks {start : Emission} (h : Emits start e) (hstart : Tracks fs start.written start.files) :
    Tracks fs e.written e.files := by
  induction h with
  | start => exact hstart
  | write _ hwrite ih => exact ih.write hwrite
  | say _ ih => exact ih

theorem emits_writeGroup (h : p.writeGroup e group = .ok e') (he : Emits start e) : Emits start e' := by
  obtain ⟨_, e₁, _, e₂, _, _, h₁, h₂, rfl⟩ := exists_writes_of_writeGroup h
  exact ((he.write h₁).write h₂).say

theorem emits_orphanFunctions {functions : List Function}
    (h : functions.foldlM p.orphanFunction acc = .ok acc') (he : Emits start acc.2) : Emits start acc'.2 := by
  refine ensures_foldlM (Q := fun b => Emits start b.2) he (fun b f hb => ?_) acc' h
  exact ensures_then fun _ _ => ensures_pure hb.say

theorem emits_writeOrphan {orphan : Orphan} (h : p.writeOrphan e orphan = .ok e')
    (he : Emits start e) : Emits start e' := by
  unfold Plan.writeOrphan at h
  dsimp only at h
  split at h
  · simp only [bind_eq_ok, pure_eq_ok] at h
    obtain ⟨g, -, e₁, h₁, rfl⟩ := h
    exact (he.write h₁).say
  · simp only [bind_eq_ok] at h
    obtain ⟨⟨texts, e₁⟩, hfunctions, text, -, h₁⟩ := h
    exact (emits_orphanFunctions hfunctions he).write h₁

theorem emits_emit (h : p.emit files = .ok e) : Emits { files } e := by
  simp only [Plan.emit, bind_eq_ok] at h
  obtain ⟨header, -, e₁, h₁, source, -, e₂, h₂, e₃, h₃, h₄⟩ := h
  have hshared : Emits { files } e₂ := (Emits.start.write h₁).write h₂
  have hgroups := ensures_foldlM hshared (fun _ _ he _ h => emits_writeGroup h he) e₃ h₃
  exact ensures_foldlM hgroups (fun _ _ he _ h => emits_writeOrphan h he) e h₄

theorem tracks_emit (hfiles : files.fileAt? = fs.fileAt?) (h : p.emit files = .ok e) :
    Tracks fs e.written e.files := by
  refine (emits_emit h).tracks ⟨fun path hpath => absurd hpath not_mem_nil, fun place _ => ?_⟩
  exact congrFun hfiles place

end Program

end ObjcLowering
