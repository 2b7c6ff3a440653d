import ObjcLowering.Patched.Values
import ObjcLowering.Proofs.Lowering.Runs
import ObjcLowering.Proofs.Tables

/-! What gathering does at each node at the top of a file. -/

namespace ObjcLowering.Patched

open Lowering List

def Gathers (a : Gather α) (input : Input) (g : Gathered) (r : α) (g' : Gathered) : Prop :=
  (a.run input).run g = .ok (r, g')

@[simp] theorem gathers_pure : Gathers (pure x) input g r g' ↔ r = x ∧ g' = g := ok_pair_eq_ok

theorem gathers_bind :
    Gathers (a >>= f) input g r g' ↔ ∃ x g₁, Gathers a input g x g₁ ∧ Gathers (f x) input g₁ r g' :=
  run_bind_eq_ok

@[simp] theorem gathers_liftM {e : Except Fault α} :
    Gathers (liftM e : Gather α) input g r g' ↔ e = .ok r ∧ g' = g := run_liftM_eq_ok

@[simp] theorem gathers_liftM_bind {e : Except Fault α} :
    Gathers (liftM e >>= f) input g r g' ↔ ∃ x, e = .ok x ∧ Gathers (f x) input g r g' := by
  simp [gathers_bind, and_assoc]

@[simp] theorem gathers_read_bind :
    Gathers (read >>= f) input g r g' ↔ Gathers (f input) input g r g' := Iff.rfl

@[simp] theorem gathers_get_bind : Gathers (get >>= f) input g r g' ↔ Gathers (f g) input g r g' := Iff.rfl

theorem gathers_discard_liftM {e : Except Fault α} :
    Gathers (discard (liftM e : Gather α)) input g r g' ↔ (∃ x, e = .ok x) ∧ g' = g := by
  have h : (discard (liftM e : Gather α)) = (liftM e : Gather α) >>= fun _ => pure () := rfl
  rw [h, gathers_liftM_bind]
  simp

@[simp] theorem gathers_setValue :
    Gathers (setValue key value) input g r g' ↔ g' = { g with values := g.values.set key value } :=
  ok_unit_eq_ok

@[simp] theorem gathers_setValue_bind : Gathers (setValue key value >>= f) input g r g' ↔
    Gathers (f ⟨⟩) input { g with values := g.values.set key value } r g' := Iff.rfl

@[simp] theorem gathers_note :
    Gathers (note text) input g r g' ↔ g' = { g with diagnostics := g.diagnostics ++ [text] } :=
  ok_unit_eq_ok

@[simp] theorem gathers_settle :
    Gathers (settle name) input g r g' ↔ g' = { g with statics := g.statics.filter (· != name) } :=
  ok_unit_eq_ok

def envOf (input : Input) (cls : ClassDecl) : Env :=
  { cls
    module := input.module
    root := input.root
    hasItemPool := input.hasItemPool
    source := some input.text
    owning := input.owning }

theorem gathers_lowering {cls : ClassDecl} : Gathers (lowering cls strings run) input g (a, s) g' ↔
      Yields run (envOf input cls) { literals := g.literals, strings } a s ∧
        g' = { g with
          literals := s.literals
          diagnostics := g.diagnostics ++ s.diagnostics
          errors := g.errors ++ s.errors } := by
  unfold lowering
  simp only [gathers_read_bind, gathers_get_bind, gathers_liftM_bind]
  constructor
  · rintro ⟨⟨b, u⟩, hrun, h⟩
    cases h
    exact ⟨hrun, rfl⟩
  · rintro ⟨hrun, rfl⟩
    exact ⟨(a, s), hrun, rfl⟩

def methodNodes (t : Tree) : List Tree := t.children.filterMap methodOf?

def Input.class? (input : Input) (name : String) : Option ClassDecl :=
  input.classes.reverse.find? fun c => c.name == .text name

theorem gathers_setValues : Gathers (definitions.forM fun d => setValue d.1 d.2) input g r g' ↔
      g' = { g with values := g.values.merge ⟨definitions⟩ } := by
  induction definitions generalizing g with
  | nil => exact gathers_pure.trans ⟨fun h => h.2, fun h => ⟨rfl, h⟩⟩
  | cons d definitions ih =>
    rw [forM_eq_forM] at ih ⊢
    rw [forM_cons, gathers_bind]
    simp only [gathers_setValue, ih]
    constructor
    · rintro ⟨-, g₁, rfl, rfl⟩
      rfl
    · rintro rfl
      exact ⟨⟨⟩, _, rfl, rfl⟩

def withDefinitions (impl : Implementation) (values : Table String String) : Table String String :=
  let values := values.merge ⟨impl.definitions⟩
  match impl.definitions.getLast? with
  | some (last, _) =>
    if impl.dealloc = "" then values
    else values.set last ((values.find? last).getD "" ++ "\n" ++ impl.dealloc)
  | none => values

def preambleText (head : String) (impl : Implementation) (s : State) : String :=
  head ++ String.join (s.strings.map (· ++ "\n")) ++ String.join (s.blocks.map (· ++ "\n\n"))
    ++ impl.others ++ (if impl.definitions.isEmpty then impl.dealloc else "")

inductive LowersImplementation (source : String) (ts : List Tree) (env : Env) (impl : Implementation) :
    Prop
  | intro {definitions : List (Definition × String)} {others : List String} :
      Forall₂ (fun t d => definitionOf source t = .ok d.1 ∧
        ∃ s s', Yields (definitionText d.1) env s d.2 s') ts definitions →
      Forall₂ (fun m text => ∃ s s' body, Yields (methodText m) env s body s' ∧ text = body ++ "\n")
        (env.cls.methods.filter (isMade env (definitions.map (·.1)))) others →
      (if (definitions.map (·.1)).any (isWrittenDealloc env) || env.cls.name = "OZSpinLock" then
          impl.dealloc = ""
        else ∃ made, madeDealloc? env = .ok made ∧ impl.dealloc = made.getD "") →
      impl.definitions = definitions.map (fun d => (d.1.key, d.2)) → impl.others = String.join others →
      LowersImplementation source ts env impl

theorem lowersImplementation_of_yields (h : Yields (lowerImplementation source ts) env s impl s') :
    LowersImplementation source ts env impl := by
  unfold lowerImplementation at h
  simp only [yields_read_bind] at h
  obtain ⟨definitions, s₁, hdefinitions, h⟩ := yields_bind.mp h
  obtain ⟨others, s₂, hothers, h⟩ := yields_bind.mp h
  have hforall : Forall₂ (fun t d => definitionOf source t = .ok d.1 ∧
      ∃ s s', Yields (definitionText d.1) env s d.2 s') ts definitions := by
    refine (forall₂_of_yields_mapM hdefinitions).imp fun t d hd => ?_
    obtain ⟨u, u', hd⟩ := hd
    obtain ⟨x, hx, hd⟩ := yields_liftM_bind.mp hd
    obtain ⟨text, u₁, htext, hd⟩ := yields_bind.mp hd
    obtain ⟨rfl, -⟩ := yields_pure.mp hd
    exact ⟨hx, u, u₁, htext⟩
  have hmade : Forall₂ (fun m text => ∃ s s' body, Yields (methodText m) env s body s' ∧
      text = body ++ "\n") (env.cls.methods.filter (isMade env (definitions.map (·.1)))) others := by
    refine (forall₂_of_yields_mapM hothers).imp fun m text hm => ?_
    obtain ⟨u, u', hm⟩ := hm
    obtain ⟨body, u₁, hbody, hm⟩ := yields_bind.mp hm
    obtain ⟨rfl, -⟩ := yields_pure.mp hm
    exact ⟨u, u₁, body, hbody, rfl⟩
  split at h
  · next hwritten =>
    obtain ⟨rfl, -⟩ := yields_pure.mp (yields_pure_bind.mp h)
    exact .intro hforall hmade (by rw [if_pos hwritten]) rfl rfl
  · next hwritten =>
    obtain ⟨made, hdealloc, h⟩ := yields_liftM_bind.mp h
    obtain ⟨rfl, -⟩ := yields_pure.mp (yields_pure_bind.mp h)
    exact .intro hforall hmade (by rw [if_neg hwritten]; exact ⟨made, hdealloc, rfl⟩) rfl rfl

theorem key_of_definitionOf (h : definitionOf source t = .ok d) : d.key = codeKey source t := by
  obtain ⟨selector, -, hd⟩ := bind_eq_ok.mp h
  rw [← pure_eq_ok.mp hd]

theorem LowersImplementation.keys_eq (h : LowersImplementation source ts env impl) :
    impl.definitions.map (·.1) = ts.map (codeKey source) := by
  cases h with
  | intro hforall _ _ hdefinitions _ =>
    have hkeys := hforall.imp fun _ _ hd => key_of_definitionOf hd.1
    rw [hdefinitions, map_map, ← forall₂_eq_eq_eq, forall₂_map_left_iff,
      forall₂_map_right_iff]
    exact hkeys.flip

inductive AddsClass (input : Input) (t : Tree) (cls : ClassDecl) (g g' : Gathered) : Prop
  | intro {head : String} {impl : Implementation} {s : State} :
      implementationHead input g.statics cls = .ok head →
      Yields (lowerImplementation input.text (methodNodes t)) (envOf input cls)
        { literals := g.literals } impl s →
      g'.values = (withDefinitions impl g.values).set (preambleKey input.text t) (preambleText head impl s) →
      g'.statics = g.statics → AddsClass input t cls g g'

theorem gathered_of_gatherClass {cls : ClassDecl} (h : Gathers (gatherClass t cls) input g r g') :
    ∃ head impl s, implementationHead input g.statics cls = .ok head ∧
      Yields (lowerImplementation input.text (methodNodes t)) (envOf input cls)
        { literals := g.literals } impl s ∧
      g' = { g with
        values := (withDefinitions impl g.values).set (preambleKey input.text t) (preambleText head impl s)
        literals := s.literals
        diagnostics := g.diagnostics ++ s.diagnostics
        errors := g.errors ++ s.errors } := by
  unfold gatherClass at h
  simp only [gathers_read_bind, gathers_get_bind, gathers_liftM_bind] at h
  obtain ⟨head, hhead, h⟩ := h
  obtain ⟨⟨impl, s⟩, g₁, hlower, h⟩ := gathers_bind.mp h
  obtain ⟨hyields, rfl⟩ := gathers_lowering.mp hlower
  dsimp only at h
  obtain ⟨_, g₂, hset, h⟩ := gathers_bind.mp h
  cases gathers_setValues.mp hset
  refine ⟨head, impl, s, hhead, hyields, ?_⟩
  unfold withDefinitions
  cases hlast : impl.definitions.getLast? with
  | none =>
    rw [hlast] at h
    rw [gathers_setValue.mp h]
    rfl
  | some last =>
    rw [hlast] at h
    dsimp only at h ⊢
    split at h
    · next hdealloc =>
      rw [gathers_setValue.mp h, if_pos hdealloc]
      rfl
    · next hdealloc =>
      obtain ⟨_, g₃, hlastValue, h⟩ := gathers_bind.mp (gathers_get_bind.mp h)
      rw [gathers_setValue.mp h, gathers_setValue.mp hlastValue, if_neg hdealloc]
      rfl

theorem addsClass_of_gathers (h : Gathers (gatherClass t cls) input g r g') : AddsClass input t cls g g' := by
  obtain ⟨head, impl, s, hhead, hyields, rfl⟩ := gathered_of_gatherClass h
  exact .intro hhead hyields rfl rfl

inductive FunctionText (input : Input) (t : Tree) : String → Prop
  | kept : t.text input.text = .ok text → FunctionText input t text
  | lowered :
      functionName? input.text t = .ok (some name) → function? input name = some f →
      Yields (functionText f) (envOf input { name := "__patched__" }) s text s' →
      FunctionText input t (String.join (s'.blocks.map (· ++ "\n\n")) ++ text)

def settles? (input : Input) (statics : List Name) (name : Option String) : Option StaticVar :=
  (name.filter fun n => n != "" && statics.contains (.text n)).bind (static? input)

inductive Adds (input : Input) (t : Tree) (g g' : Gathered) : Prop
  | listed {name : String} {cls : ClassDecl} : implementationTypes.contains t.type = true →
      declaredName? input.text t = .ok (some name) → input.class? name = some cls →
      AddsClass input t cls g g' → Adds input t g g'
  | unlisted : implementationTypes.contains t.type = true →
      declaredName? input.text t = .ok name → name.bind input.class? = none →
      g'.values = g.values.set (preambleKey input.text t) "" → g'.statics = g.statics → Adds input t g g'
  | included : t.type = "preproc_include" → t.text input.text = .ok text →
      g'.values = g.values.set (codeKey input.text t)
        (Text.trim (includeText input.files text (some input.path.parent))) →
      g'.statics = g.statics → Adds input t g g'
  | function : t.type = "function_definition" → FunctionText input t text →
      g'.values = g.values.set (codeKey input.text t) text → g'.statics = g.statics → Adds input t g g'
  | prototype : t.type = "declaration" → isPrototype t = true →
      g'.values = g.values.set (codeKey input.text t) "" → g'.statics = g.statics → Adds input t g g'
  | settled {name : Option String} {v : StaticVar} {text : String} : t.type = "declaration" →
      isPrototype t = false → variableName? input.text t = .ok name →
      settles? input g.statics name = some v → t.text input.text = .ok text →
      g'.values = g.values.set (codeKey input.text t) (if v.type.isObject then staticText v else text) →
      g'.statics = g.statics.filter (· != v.name) → Adds input t g g'
  | declared : t.type = "declaration" →
      isPrototype t = false → variableName? input.text t = .ok name →
      settles? input g.statics name = none → t.text input.text = .ok text →
      g'.values = g.values.set (codeKey input.text t) text → g'.statics = g.statics → Adds input t g g'
  | silent : implementationTypes.contains t.type = false →
      t.type ∉ ["preproc_include", "function_definition", "declaration"] →
      g'.values = g.values → g'.statics = g.statics → Adds input t g g'

theorem adds_of_gatherImplementation {r : Unit} (htype : implementationTypes.contains t.type = true)
    (h : Gathers (gatherImplementation t) input g r g') : Adds input t g g' := by
  unfold gatherImplementation at h
  simp only [gathers_read_bind, gathers_liftM_bind] at h
  obtain ⟨name, hname, h⟩ := h
  split at h
  · next cls hcls =>
    obtain ⟨name, rfl, hclass⟩ := Option.bind_eq_some_iff.mp hcls
    exact .listed htype hname hclass (addsClass_of_gathers h)
  · next hcls =>
    split at h
    · obtain ⟨_, g₁, hnote, h⟩ := gathers_bind.mp h
      cases gathers_note.mp hnote
      rw [gathers_setValue] at h
      subst h
      exact .unlisted htype hname hcls rfl rfl
    · rw [gathers_setValue] at h
      subst h
      exact .unlisted htype hname hcls rfl rfl

theorem gathers_loweredFunction (h : Gathers (loweredFunction f) input g r g') :
    ∃ s s' body, Yields (functionText f) (envOf input { name := "__patched__" }) s body s' ∧
      r = String.join (s'.blocks.map (· ++ "\n\n")) ++ body ∧ g'.values = g.values ∧
      g'.statics = g.statics := by
  unfold loweredFunction at h
  rw [gathers_get_bind] at h
  obtain ⟨⟨body, s⟩, g₁, hlower, h⟩ := gathers_bind.mp h
  obtain ⟨hyields, rfl⟩ := gathers_lowering.mp hlower
  cases h
  exact ⟨_, s, body, hyields, rfl, rfl, rfl⟩

theorem adds_of_gatherFunction {text : String} (htype : t.type = "function_definition")
    (htext : t.text input.text = .ok text) (h : Gathers (gatherFunction t text) input g r g') :
    Adds input t g g' := by
  unfold gatherFunction at h
  simp only [gathers_read_bind, gathers_liftM_bind] at h
  obtain ⟨name, hname, h⟩ := h
  split at h
  · next f hf =>
    obtain ⟨known, hknown, hf⟩ := Option.bind_eq_some_iff.mp hf
    rw [(Option.filter_eq_some_iff.mp hknown).1] at hname
    have hf := (Option.filter_eq_some_iff.mp hf).1
    split at h
    · obtain ⟨lowered, g₁, hlowered, h⟩ := gathers_bind.mp h
      obtain ⟨s, s', body, hyields, rfl, hvalues, hstatics⟩ := gathers_loweredFunction hlowered
      cases gathers_note.mp (gathers_setValue_bind.mp h)
      exact .function htype (.lowered hname hf hyields) (by rw [hvalues]) hstatics
    · cases gathers_note.mp (gathers_setValue_bind.mp h)
      exact .function htype (.kept htext) rfl rfl
  · cases gathers_setValue.mp h
    exact .function htype (.kept htext) rfl rfl

theorem adds_of_gatherDeclaration {text : String} (htype : t.type = "declaration")
    (htext : t.text input.text = .ok text) (h : Gathers (gatherDeclaration t text) input g r g') :
    Adds input t g g' := by
  unfold gatherDeclaration at h
  simp only [gathers_read_bind] at h
  split at h
  · next hprototype =>
    cases gathers_setValue.mp h
    exact .prototype htype hprototype rfl rfl
  · next hprototype =>
    have hprototype := Bool.eq_false_iff.mpr hprototype
    simp only [gathers_liftM_bind, gathers_get_bind] at h
    obtain ⟨name, hname, h⟩ := h
    split at h
    · next v hv =>
      obtain ⟨_, g₁, hchecked, hrest⟩ := gathers_bind.mp h
      obtain ⟨-, hsame⟩ := gathers_discard_liftM.mp hchecked
      rw [hsame] at hrest
      obtain ⟨_, g₂, hsettle, hset⟩ := gathers_bind.mp hrest
      cases gathers_settle.mp hsettle
      split at hset
      · next hobject =>
        cases gathers_note.mp (gathers_setValue_bind.mp hset)
        exact .settled htype hprototype hname hv htext (by rw [if_pos hobject]) rfl
      · next hobject =>
        cases gathers_note.mp (gathers_setValue_bind.mp hset)
        exact .settled htype hprototype hname hv htext (by rw [if_neg hobject]) rfl
    · next hnone =>
      cases gathers_setValue.mp h
      exact .declared htype hprototype hname hnone htext rfl rfl

theorem adds_of_gatherTop {r : Unit} (h : Gathers (gatherTop t) input g r g') : Adds input t g g' := by
  unfold gatherTop at h
  simp only [gathers_read_bind, gathers_liftM_bind] at h
  obtain ⟨text, htext, h⟩ := h
  split at h
  · next htype => exact adds_of_gatherImplementation htype h
  · next hother =>
    have hother := Bool.eq_false_iff.mpr hother
    split at h
    · next htype =>
      cases gathers_setValue.mp h
      exact .included htype htext rfl rfl
    · next hinclude =>
      split at h
      · next htype => exact adds_of_gatherFunction htype htext h
      · next hfunction =>
        split at h
        · next htype => exact adds_of_gatherDeclaration htype htext h
        · next hdeclaration =>
          obtain ⟨-, rfl⟩ := gathers_pure.mp h
          exact .silent hother (by simp [hinclude, hfunction, hdeclaration]) rfl rfl

inductive AddsAll (input : Input) : List Tree → Gathered → Gathered → Prop
  | nil : AddsAll input [] g g
  | cons {t : Tree} {ts : List Tree} {g g₁ g' : Gathered} :
      Adds input t g g₁ → AddsAll input ts g₁ g' → AddsAll input (t :: ts) g g'

theorem addsAll_of_forM (h : Gathers (ts.forM gatherTop) input g r g') : AddsAll input ts g g' := by
  induction ts generalizing g with
  | nil =>
    obtain ⟨-, rfl⟩ := gathers_pure.mp h
    exact .nil
  | cons t ts ih =>
    rw [forM_eq_forM, forM_cons] at h
    obtain ⟨_, g₁, htop, hrest⟩ := gathers_bind.mp h
    exact .cons (adds_of_gatherTop htop) (ih hrest)

def Input.tops (input : Input) : List Tree := (input.files.treeOf input.text).children

def Input.staticNames (input : Input) : List Name := input.classes.flatMap fun c => c.statics.map (·.name)

theorem mapM_asKey_eq_ok {names keys : List Name} (h : names.mapM Json.asKey = .ok keys) : keys = names := by
  induction names generalizing keys with
  | nil =>
    cases h
    rfl
  | cons name names ih =>
    obtain ⟨key, hkey, keys, hkeys, rfl⟩ := mapM_eq_ok_cons.mp h
    rw [asKey_eq_ok hkey, ih hkeys]

theorem addsAll_of_gather {statics : List Name} (h : gather input statics = .ok g') :
    AddsAll input input.tops { statics := distinct (statics ++ input.staticNames) } g' := by
  unfold gather at h
  simp only [bind_eq_ok, pure_eq_ok] at h
  obtain ⟨-, -, names, hnames, ⟨r, g₁⟩, hrun, rfl⟩ := h
  rw [Input.staticNames, ← mapM_asKey_eq_ok hnames]
  exact addsAll_of_forM hrun

end ObjcLowering.Patched
