import ObjcLowering.Proofs.Patched.Placeholders

/-! What the values of a file define. -/

namespace ObjcLowering.Patched

open Lowering
open List hiding head

variable {input : Input} {g g' : Gathered}

/-- Something that a file has to define: the function for a method, or a variable. -/
inductive Part
  | function (cls selector : Name) (isClassMethod : Bool)
  | variable (name : Name)
  deriving DecidableEq, Repr

structure Fragment where
  parts : List Part := []
  text : String
  deriving DecidableEq, Repr

def textOf (fs : List Fragment) : String := String.join (fs.map (·.text))

def partsOf (fs : List Fragment) : List Part := fs.flatMap (·.parts)

def methodPart (cls : ClassDecl) (m : Method) : Part := .function cls.name m.selector m.isClassMethod

def deallocPart (cls : ClassDecl) : Part := .function cls.name "dealloc" false

mutual

def declaratorName? : Tree → Option Tree
  | .node type start stop children field =>
    if type = "identifier" then some (.node type start stop children field)
    else if ["init_declarator", "pointer_declarator", "array_declarator",
      "parenthesized_declarator"].contains type then firstDeclaratorName? children
    else none

def firstDeclaratorName? : List Tree → Option Tree
  | [] => none
  | t :: ts => (declaratorName? t).or (firstDeclaratorName? ts)

end

def declaredNames (source : String) (t : Tree) : List String :=
  t.children.filterMap fun c => (declaratorName? c).bind fun name => (name.text source).toOption

def declaredParts (source : String) (t : Tree) : List Part :=
  (declaredNames source t).map fun name => .variable (.text name)

inductive Written (input : Input) : Fragment → Prop
  | method {cls : ClassDecl} {m : Method} {s s' : State} {text : String} :
      cls ∈ input.classes → m ∈ cls.methods → m.selector ≠ "dealloc" →
      Yields (methodText m) (envOf input cls) s text s' → Written input ⟨[methodPart cls m], text⟩
  | dealloc :
      cls ∈ input.classes → m ∈ cls.methods → m.selector = "dealloc" →
      Yields (writtenDealloc m) (envOf input cls) s text s' → Written input ⟨[methodPart cls m], text⟩
  | madeDealloc : cls ∈ input.classes →
      madeDealloc? (envOf input cls) = .ok (some text) → Written input ⟨[deallocPart cls], text⟩
  | static : cls ∈ input.classes → v ∈ cls.statics →
      Written input ⟨[.variable v.name], staticText v⟩
  | declaration : t ∈ input.tops → t.type = "declaration" →
      t.text input.text = .ok text → Written input ⟨declaredParts input.text t, text⟩
  | builtIns : Written input ⟨[], countingText input.root ++ introspectionText input.root⟩
  | helper :
      cls ∈ input.classes → Yields (lowerImplementation input.text ts) (envOf input cls) s impl s' →
      text ∈ s'.strings ++ s'.blocks → Written input ⟨[], text⟩
  | function : t ∈ input.tops → t.type = "function_definition" →
      FunctionText input t text → Written input ⟨[], text⟩
  | included : t ∈ input.tops → t.type = "preproc_include" →
      t.text input.text = .ok text →
      Written input ⟨[], Text.trim (includeText input.files text (some input.path.parent))⟩
  | lineFeed : Written input ⟨[], "\n"⟩

def Composed (input : Input) (parts : List Part) (text : String) : Prop :=
  ∃ fs, partsOf fs = parts ∧ textOf fs = text ∧ ∀ f ∈ fs, Written input f

theorem Composed.nil : Composed input [] "" := ⟨[], rfl, rfl, fun _ hf => (List.not_mem_nil hf).elim⟩

theorem Written.composed (h : Written input ⟨parts, text⟩) : Composed input parts text := by
  refine ⟨[⟨parts, text⟩], by simp [partsOf], by simp [textOf], fun f hf => ?_⟩
  cases mem_singleton.mp hf
  exact h

theorem Composed.append (h : Composed input parts text)
    (h' : Composed input parts' text') : Composed input (parts ++ parts') (text ++ text') := by
  obtain ⟨fs, rfl, rfl, hfs⟩ := h
  obtain ⟨fs', rfl, rfl, hfs'⟩ := h'
  refine ⟨fs ++ fs', by simp [partsOf], by simp [textOf], fun f hf => ?_⟩
  rcases mem_append.mp hf with hf | hf
  exacts [hfs f hf, hfs' f hf]

theorem Composed.join (h : List.Forall₂ (fun x text => Composed input (parts x) text) xs texts) :
    Composed input (xs.flatMap parts) (String.join texts) := by
  induction h with
  | nil => exact .nil
  | cons hx _ ih =>
    rw [flatMap_cons, String.join_cons]
    exact hx.append ih

theorem Composed.line (h : Composed input parts text) : Composed input parts (text ++ "\n") := by
  have hline := h.append Written.lineFeed.composed
  rwa [append_nil] at hline

def definitionsIn (source : String) (t : Tree) : List Definition :=
  (methodNodes t).filterMap fun m => (definitionOf source m).toOption

def definitionParts (env : Env) (d : Definition) : List Part :=
  match env.cls.methods.find? fun m => isDefinedBy m d with
  | none => []
  | some m => if isBuiltIn env m then [] else [methodPart env.cls m]

def headParts (statics : List Name) (cls : ClassDecl) : List Part :=
  (cls.statics.filter fun v => statics.contains v.name).map fun v => .variable v.name

def madeParts (env : Env) (ds : List Definition) : List Part :=
  (env.cls.methods.filter (isMade env ds)).map (methodPart env.cls)

def deallocParts (env : Env) (ds : List Definition) : List Part :=
  if ds.any (isWrittenDealloc env) || env.cls.name = "OZSpinLock" then []
  else
    match madeDealloc? env with
    | .ok (some _) => [deallocPart env.cls]
    | _ => []

def functionParts (env : Env) (ds : List Definition) : List Part :=
  ds.flatMap (definitionParts env) ++ madeParts env ds ++ deallocParts env ds

def blockParts (env : Env) (statics : List Name) (ds : List Definition) : List Part :=
  headParts statics env.cls ++ functionParts env ds

theorem Input.mem_of_class? (h : input.class? name = some cls) :
    cls ∈ input.classes ∧ cls.name = .text name := by
  refine ⟨mem_reverse.mp (mem_of_find?_eq_some h), ?_⟩
  simpa using find?_some h

theorem composed_definitionText (hcls : cls ∈ input.classes)
    (h : Yields (definitionText d) (envOf input cls) s text s') :
    Composed input (definitionParts (envOf input cls) d) text := by
  unfold definitionText at h
  unfold definitionParts
  rw [yields_read_bind] at h
  cases hm : (envOf input cls).cls.methods.find? fun m => isDefinedBy m d with
  | none =>
    rw [hm] at h
    obtain ⟨rfl, -⟩ := yields_pure.mp h
    exact .nil
  | some m =>
    rw [hm] at h
    dsimp only at h ⊢
    have hmem := mem_of_find?_eq_some hm
    split at h
    · next hbuiltIn =>
      obtain ⟨rfl, -⟩ := yields_pure.mp h
      rw [if_pos hbuiltIn]
      exact .nil
    · next hbuiltIn =>
      rw [if_neg hbuiltIn]
      split at h
      · next hdealloc => exact (Written.dealloc hcls hmem hdealloc h).composed
      · next hdealloc => exact (Written.method hcls hmem hdealloc h).composed

theorem composed_head (hcls : cls ∈ input.classes)
    (h : implementationHead input statics cls = .ok head) : Composed input (headParts statics cls) head := by
  obtain ⟨-, -, h⟩ := bind_eq_ok.mp h
  rw [← pure_eq_ok.mp h]
  have hstatics : Composed input (headParts statics cls) (String.join
      ((cls.statics.filter fun v => statics.contains v.name).map fun v => staticText v ++ "\n")) := by
    rw [headParts, map_eq_flatMap]
    apply Composed.join
    rw [forall₂_map_right_iff, forall₂_same]
    intro v hv
    exact (Written.static hcls (mem_of_mem_filter hv)).composed.line
  have hroot : Composed input []
      (if cls.name = input.root then countingText input.root ++ introspectionText input.root else "") := by
    split
    · exact Written.builtIns.composed
    · exact .nil
  simpa using hstatics.append hroot

theorem madeDealloc?_ne_empty (h : madeDealloc? env = .ok (some text)) : text ≠ "" := by
  have hfunction : ∀ body : String, deallocHead env ++ body ≠ "" := by
    intro body hbody
    have hchars := congrArg String.toList hbody
    simp [deallocHead, toString] at hchars
  unfold madeDealloc? at h
  dsimp only at h
  split at h
  · cases h
    rw [String.append_assoc]
    exact hfunction _
  · split at h
    · cases h
      rw [String.append_assoc]
      exact hfunction _
    · obtain ⟨-, -, h⟩ := bind_eq_ok.mp h
      have h := pure_eq_ok.mp h
      split at h <;> cases h
      rw [String.append_assoc]
      exact hfunction _

theorem composed_dealloc (hcls : cls ∈ input.classes)
    (h : if ds.any (isWrittenDealloc (envOf input cls)) || (envOf input cls).cls.name = "OZSpinLock" then
        dealloc = ""
      else ∃ made, madeDealloc? (envOf input cls) = .ok made ∧ dealloc = made.getD "") :
    Composed input (deallocParts (envOf input cls) ds) dealloc ∧
      (dealloc = "" → deallocParts (envOf input cls) ds = []) := by
  unfold deallocParts
  split at h
  · next hwritten =>
    rw [if_pos hwritten, h]
    exact ⟨.nil, fun _ => rfl⟩
  · next hwritten =>
    obtain ⟨made, hmade, rfl⟩ := h
    rw [if_neg hwritten, hmade]
    cases made with
    | none => exact ⟨.nil, fun _ => rfl⟩
    | some text =>
      have hne := madeDealloc?_ne_empty hmade
      exact ⟨(Written.madeDealloc hcls hmade).composed, fun hempty => absurd hempty hne⟩

theorem composed_made (hcls : cls ∈ input.classes)
    (h : Forall₂ (fun m text => ∃ s s' body, Yields (methodText m) (envOf input cls) s body s' ∧
      text = body ++ "\n") (cls.methods.filter (isMade (envOf input cls) ds)) others) :
    Composed input (madeParts (envOf input cls) ds) (String.join others) := by
  have hmade : ∀ m ∈ cls.methods.filter (isMade (envOf input cls) ds),
      m ∈ cls.methods ∧ m.selector ≠ "dealloc" := by
    intro m hm
    obtain ⟨hmem, hmade⟩ := mem_filter.mp hm
    refine ⟨hmem, ?_⟩
    simp only [isMade, Bool.and_eq_true, bne_iff_ne] at hmade
    exact hmade.1.2
  rw [madeParts, map_eq_flatMap]
  apply Composed.join
  refine ((forall₂_and_left _ _).mpr ⟨hmade, h⟩).imp fun m text hm => ?_
  obtain ⟨⟨hmem, hdealloc⟩, s, s', body, hbody, rfl⟩ := hm
  exact (Written.method hcls hmem hdealloc hbody).composed.line

structure Row where
  key : String
  parts : List Part
  text : String

def Row.entry (r : Row) : String × String := (r.key, r.text)

def places (source : String) (t : Tree) : List String :=
  if implementationTypes.contains t.type then
    preambleKey source t :: (methodNodes t).map (codeKey source)
  else if codeTypes.contains t.type then [codeKey source t]
  else []

structure RowAt (input : Input) (t : Tree) (r : Row) : Prop where
  mem_places : r.key ∈ places input.text t
  asked : r.key ∈ asked input.text t ∨ r.parts = []
  bare : t.type = "preproc_include" → r.parts = []
  composed : Composed input r.parts r.text

structure Labels (input : Input) (t : Tree) (parts : List Part) (rows : List Row) : Prop where
  keys : (rows.map (·.key)).Perm (answered input t)
  parts : (rows.flatMap (·.parts)).Perm parts
  rows : ∀ r ∈ rows, RowAt input t r

theorem answered_sublist : (answered input t).Sublist (places input.text t) := by
  unfold answered places
  split
  · split
    · split
      · exact .refl _
      · exact (nil_sublist _).cons_cons _
    · exact (nil_sublist _).cons_cons _
  · exact .refl _

theorem Labels.of_asked {parts : List Part} {rows : List Row}
    (hkeys : (rows.map (·.key)).Perm (answered input t)) (hparts : (rows.flatMap (·.parts)).Perm parts)
    (hasked : answered input t = asked input.text t)
    (hbare : t.type = "preproc_include" → ∀ r ∈ rows, r.parts = [])
    (hcomposed : ∀ r ∈ rows, Composed input r.parts r.text) : Labels input t parts rows := by
  refine ⟨hkeys, hparts, fun r hr => ?_⟩
  have hkey : r.key ∈ answered input t := hkeys.subset (mem_map_of_mem hr)
  exact ⟨answered_sublist.subset hkey, .inl (hasked ▸ hkey), fun htype => hbare htype r hr, hcomposed r hr⟩

theorem definitionsIn_eq {R : Definition × String → Prop}
    (h : Forall₂ (fun m d => definitionOf source m = .ok d.1 ∧ R d) (methodNodes t) definitions) :
    definitionsIn source t = definitions.map (·.1) := by
  unfold definitionsIn
  generalize methodNodes t = ts at h ⊢
  induction h with
  | nil => rfl
  | cons hd _ ih => rw [filterMap_cons_some (by rw [hd.1]; rfl), ih, map_cons]

theorem entries_withDefinitions (h : impl.definitions = front ++ [last])
    (hnodup : (values.names ++ impl.definitions.map (·.1)).Nodup) :
    (withDefinitions impl values).entries = values.entries ++ front ++
      [(last.1, if impl.dealloc = "" then last.2 else last.2 ++ "\n" ++ impl.dealloc)] := by
  have hentries := Table.entries_merge_of_nodup hnodup
  have hmem : last ∈ (values.merge ⟨impl.definitions⟩).entries := by
    rw [hentries, h]
    simp
  have hnames : (values.merge ⟨impl.definitions⟩).names.Nodup := by
    rw [Table.names, hentries, map_append]
    exact hnodup
  have hfind : (values.merge ⟨impl.definitions⟩).find? last.1 = some last.2 := Table.find?_of_mem hnames hmem
  have hlast : impl.definitions.getLast? = some last := by simp [h]
  unfold withDefinitions
  dsimp only
  rw [hlast]
  dsimp only
  split
  · rw [hentries, h, append_assoc]
  · have hnew : last.1 ∉ (values.entries ++ front).map (·.1) := by
      have hkeys : ((values.entries ++ front).map (·.1) ++ [last.1]).Nodup := by
        simpa [h, Table.names] using hnodup
      exact fun hkey => disjoint_of_nodup_append hkeys hkey (.head _)
    rw [hfind, Option.getD_some, Table.set, hentries, h, ← append_assoc,
      Table.setIn_append_of_notMem hnew]
    simp [Table.setIn]

def preambleStart (head : String) (impl : Implementation) (s : State) : String :=
  head ++ String.join (s.strings.map (· ++ "\n")) ++ String.join (s.blocks.map (· ++ "\n\n")) ++ impl.others

theorem composed_preambleStart
    (hcls : cls ∈ input.classes) (hhead : implementationHead input statics cls = .ok head)
    (hyields : Yields (lowerImplementation input.text ts) (envOf input cls) s impl s')
    (hothers : Composed input made impl.others) :
    Composed input (headParts statics cls ++ made) (preambleStart head impl s') := by
  have hhelper : ∀ texts : List String, texts ⊆ s'.strings ++ s'.blocks →
      ∀ feeds, Composed input [] feeds → Composed input [] (String.join (texts.map (· ++ feeds))) := by
    intro texts htexts feeds hfeeds
    have hjoin : Composed input (texts.flatMap fun _ => []) (String.join (texts.map (· ++ feeds))) := by
      apply Composed.join
      rw [forall₂_map_right_iff, forall₂_same]
      intro text htext
      exact (Written.helper hcls hyields (htexts htext)).composed.append hfeeds
    rwa [flatMap_eq_nil_iff.mpr fun _ _ => rfl] at hjoin
  have hfeed : Composed input [] "\n" := Written.lineFeed.composed
  have hstrings := hhelper s'.strings (subset_append_left _ _) "\n" hfeed
  have hblocks := hhelper s'.blocks (subset_append_right _ _) "\n\n" hfeed.line
  have hall := (((composed_head hcls hhead).append hstrings).append hblocks).append hothers
  rwa [append_nil, append_nil] at hall

/-- The rows of an implementation. A `dealloc` that is made follows the last definition, or stands at
the end of the preamble. -/
def blockRows (definitions : List Row) (preamble : Row) (parts : List Part) (dealloc : String) : List Row :=
  match definitions.getLast? with
  | none => [⟨preamble.key, preamble.parts ++ parts, preamble.text ++ dealloc⟩]
  | some last =>
    definitions.dropLast ++
      [⟨last.key, last.parts ++ parts, if dealloc = "" then last.text else last.text ++ "\n" ++ dealloc⟩,
       preamble]

section

variable (front : List Row) (last preamble : Row) (parts : List Part) (dealloc : String)

@[simp] theorem blockRows_nil : blockRows [] preamble parts dealloc =
    [⟨preamble.key, preamble.parts ++ parts, preamble.text ++ dealloc⟩] := rfl

@[simp] theorem blockRows_concat : blockRows (front ++ [last]) preamble parts dealloc = front ++
    [⟨last.key, last.parts ++ parts, if dealloc = "" then last.text else last.text ++ "\n" ++ dealloc⟩,
     preamble] := by
  simp [blockRows]

variable {preamble parts dealloc}

theorem keys_blockRows : (blockRows definitions preamble parts dealloc).map (·.key) =
    definitions.map (·.key) ++ [preamble.key] := by
  rcases eq_nil_or_concat' definitions with rfl | ⟨front, last, rfl⟩ <;> simp

theorem parts_blockRows : ((blockRows definitions preamble parts dealloc).flatMap (·.parts)).Perm
    (definitions.flatMap (·.parts) ++ preamble.parts ++ parts) := by
  rcases eq_nil_or_concat' definitions with rfl | ⟨front, last, rfl⟩
  · simp
  · simp only [blockRows_concat, flatMap_append, flatMap_cons, flatMap_nil, append_nil,
      append_assoc]
    exact (perm_append_comm.append_left _).append_left _

theorem composed_blockRows (hdefinitions : ∀ r ∈ definitions, Composed input r.parts r.text)
    (hpreamble : Composed input preamble.parts preamble.text) (hdealloc : Composed input parts dealloc)
    (hempty : dealloc = "" → parts = []) :
    ∀ r ∈ blockRows definitions preamble parts dealloc, Composed input r.parts r.text := by
  intro r hr
  rcases eq_nil_or_concat' definitions with rfl | ⟨front, last, rfl⟩
  · cases mem_singleton.mp hr
    exact hpreamble.append hdealloc
  · simp only [blockRows_concat, mem_append, mem_cons, not_mem_nil, or_false] at hr
    rcases hr with hr | rfl | rfl
    · exact hdefinitions r (mem_append_left _ hr)
    · have hlast := hdefinitions last (mem_append_right _ (.head _))
      dsimp only
      split
      · next hnone => rwa [hempty hnone, append_nil]
      · exact hlast.line.append hdealloc
    · exact hpreamble

theorem entries_blockRows (hdefinitions : impl.definitions = definitions.map Row.entry)
    (hpreamble : preamble.text = preambleStart head impl s)
    (hnodup : (values.names ++ preamble.key :: definitions.map (·.key)).Nodup) :
    ((withDefinitions impl values).set preamble.key (preambleText head impl s)).entries =
      values.entries ++ (blockRows definitions preamble parts impl.dealloc).map Row.entry := by
  have hkeys : impl.definitions.map (·.1) = definitions.map (·.key) := by
    rw [hdefinitions, map_map]
    rfl
  have hnew : preamble.key ∉ (withDefinitions impl values).names := by
    rw [mem_names_withDefinitions, hkeys, ← mem_append]
    exact (nodup_middle.mp hnodup).notMem
  have hdistinct : (values.names ++ impl.definitions.map (·.1)).Nodup := by
    rw [hkeys]
    exact hnodup.sublist ((sublist_cons_self _ _).append_left _)
  rw [Table.entries_set_of_notMem hnew]
  rcases eq_nil_or_concat' definitions with rfl | ⟨front, last, rfl⟩
  · have hnone : impl.definitions = [] := hdefinitions
    have hwith : withDefinitions impl values = values := by simp [withDefinitions, hnone, Table.merge]
    simp [hwith, Row.entry, hpreamble, preambleText, preambleStart, hnone]
  · have hconcat : impl.definitions = front.map Row.entry ++ [last.entry] := by simp [hdefinitions]
    rw [entries_withDefinitions hconcat hdistinct]
    simp [Row.entry, hpreamble, preambleText, preambleStart, hconcat]

end

def definitionRow (env : Env) (d : Definition × String) : Row := ⟨d.1.key, definitionParts env d.1, d.2⟩

theorem composed_definitionRow (hcls : cls ∈ input.classes)
    (h : Forall₂ (fun m d => definitionOf input.text m = .ok d.1 ∧
      ∃ s s', Yields (definitionText d.1) (envOf input cls) s d.2 s') ts definitions) :
    ∀ r ∈ definitions.map (definitionRow (envOf input cls)), Composed input r.parts r.text := by
  induction h with
  | nil =>
    intro r hr
    cases hr
  | cons hd _ ih =>
    rw [map_cons, forall_mem_cons]
    obtain ⟨-, s, s', hd⟩ := hd
    exact ⟨composed_definitionText hcls hd, ih⟩

theorem AddsClass.rows (h : AddsClass input t cls g g') (hcls : cls ∈ input.classes)
    (htype : implementationTypes.contains t.type = true) (hasked : answered input t = asked input.text t)
    (hanswered : answered input t = preambleKey input.text t :: (methodNodes t).map (codeKey input.text))
    (hnodup : (g.values.names ++ answered input t).Nodup) :
    ∃ rows : List Row, g'.values.entries = g.values.entries ++ rows.map Row.entry ∧
      Labels input t (blockParts (envOf input cls) g.statics (definitionsIn input.text t)) rows := by
  cases h with
  | @intro head impl s hhead hyields hvalues _ =>
    have hkeys := (lowersImplementation_of_yields hyields).keys_eq
    cases lowersImplementation_of_yields hyields with
    | @intro definitions others hdefinitions hmade hdealloc himpl hothers =>
      let env := envOf input cls
      let ds := definitions.map (·.1)
      let preamble : Row := ⟨preambleKey input.text t, headParts g.statics cls ++ madeParts env ds,
        preambleStart head impl s⟩
      have hmade := composed_made hcls hmade
      rw [← hothers] at hmade
      obtain ⟨hdealloc, hempty⟩ := composed_dealloc hcls hdealloc
      have hpreamble : Composed input preamble.parts preamble.text :=
        composed_preambleStart hcls hhead hyields hmade
      have hrows := composed_definitionRow hcls hdefinitions
      have hentry : impl.definitions = (definitions.map (definitionRow env)).map Row.entry := by
        rw [himpl, map_map]
        rfl
      have hrowKeys : (definitions.map (definitionRow env)).map (·.key) =
          (methodNodes t).map (codeKey input.text) := by
        rw [← hkeys, himpl, map_map, map_map]
        rfl
      have hdistinct : (g.values.names ++ preamble.key ::
          (definitions.map (definitionRow env)).map (·.key)).Nodup := by
        rw [hrowKeys, ← hanswered]
        exact hnodup
      rw [definitionsIn_eq hdefinitions]
      refine ⟨blockRows (definitions.map (definitionRow env)) preamble (deallocParts env ds) impl.dealloc,
        ?_, .of_asked ?_ ?_ hasked ?_ (composed_blockRows hrows hpreamble hdealloc hempty)⟩
      · rw [hvalues]
        exact entries_blockRows hentry (rfl : preamble.text = preambleStart head impl s) hdistinct
      · rw [keys_blockRows, hrowKeys, hanswered]
        exact perm_append_singleton _ _
      · refine parts_blockRows.trans ?_
        simp only [blockParts, functionParts, preamble, flatMap_map, append_assoc]
        exact perm_append_comm_assoc _ _ _
      · intro hinclude
        rw [hinclude] at htype
        exact absurd htype (by decide)

def settled? (input : Input) (statics : List Name) (t : Tree) : Option StaticVar :=
  if t.type = "declaration" && !isPrototype t then
    match variableName? input.text t with
    | .ok name => settles? input statics name
    | .error _ => none
  else none

/-- What is written for a declaration. One that defines an object is replaced by its definition, and one
of a function is left out. -/
def declarationParts (input : Input) (statics : List Name) (t : Tree) : List Part :=
  if isPrototype t then []
  else
    match settled? input statics t with
    | some v => if v.type.isObject then [.variable v.name] else declaredParts input.text t
    | none => declaredParts input.text t

def classAt? (input : Input) (t : Tree) : Option ClassDecl :=
  if implementationTypes.contains t.type then
    match declaredName? input.text t with
    | .ok name => name.bind input.class?
    | .error _ => none
  else none

def topParts (input : Input) (statics : List Name) (t : Tree) : List Part :=
  match classAt? input t with
  | some cls => blockParts (envOf input cls) statics (definitionsIn input.text t)
  | none => if t.type = "declaration" then declarationParts input statics t else []

def staticsAfter (input : Input) (statics : List Name) (t : Tree) : List Name :=
  match settled? input statics t with
  | some v => statics.filter (· != v.name)
  | none => statics

def partsFrom (input : Input) : (statics : List Name) → List Tree → List Part
  | _, [] => []
  | statics, t :: ts => topParts input statics t ++ partsFrom input (staticsAfter input statics t) ts

theorem rows_of_code {text : String} (htype : t.type ∈ codeTypes)
    (hnodup : (g.values.names ++ answered input t).Nodup)
    (hvalues : g'.values = g.values.set (codeKey input.text t) text) (hcomposed : Composed input parts text)
    (hbare : t.type = "preproc_include" → parts = []) :
    ∃ rows : List Row, g'.values.entries = g.values.entries ++ rows.map Row.entry ∧
      Labels input t parts rows := by
  have hanswered : answered input t = [codeKey input.text t] := answered_of_code htype
  have hnew : codeKey input.text t ∉ g.values.names := by
    rw [hanswered] at hnodup
    exact fun hkey => disjoint_of_nodup_append hnodup hkey (.head _)
  refine ⟨[⟨codeKey input.text t, parts, text⟩], ?_, .of_asked ?_ ?_ ?_ ?_ ?_⟩
  · rw [hvalues, Table.entries_set_of_notMem hnew]
    rfl
  · rw [hanswered]
    exact .refl _
  · simp
  · rw [hanswered, asked_of_code htype]
  · intro hinclude r hr
    cases mem_singleton.mp hr
    exact hbare hinclude
  · intro r hr
    cases mem_singleton.mp hr
    exact hcomposed

theorem exists_of_settles? (h : settles? input statics name = some v) :
    ∃ cls ∈ input.classes, v ∈ cls.statics := by
  obtain ⟨n, -, h⟩ := Option.bind_eq_some_iff.mp h
  exact mem_flatMap.mp (mem_of_find?_eq_some h)

theorem settled?_eq (htype : t.type = "declaration")
    (hprototype : isPrototype t = false) (hname : variableName? input.text t = .ok name) :
    settled? input statics t = settles? input statics name := by
  simp [settled?, htype, hprototype, hname]

theorem classAt?_eq (htype : implementationTypes.contains t.type = true)
    (hname : declaredName? input.text t = .ok name) : classAt? input t = name.bind input.class? := by
  rw [classAt?, if_pos htype, hname]

theorem classAt?_of_plain (htype : implementationTypes.contains t.type = false) :
    classAt? input t = none := by
  rw [classAt?, htype]
  rfl

theorem classAt?_of_declaration (htype : t.type = "declaration") : classAt? input t = none :=
  classAt?_of_plain (plain_of_code _ (by simp [htype, codeTypes]))

theorem topParts_of_class (h : classAt? input t = some cls) : topParts input statics t =
    blockParts (envOf input cls) statics (definitionsIn input.text t) := by
  rw [topParts, h]

theorem topParts_of_ne (h : classAt? input t = none) (htype : t.type ≠ "declaration") :
    topParts input statics t = [] := by
  rw [topParts, h]
  exact if_neg htype

theorem topParts_of_declaration (htype : t.type = "declaration") :
    topParts input statics t = declarationParts input statics t := by
  rw [topParts, classAt?_of_declaration htype]
  exact if_pos htype

theorem staticsAfter_of_ne (htype : t.type ≠ "declaration") : staticsAfter input statics t = statics := by
  simp [staticsAfter, settled?, htype]

theorem rows_of_unlisted (htype : implementationTypes.contains t.type = true)
    (hname : declaredName? input.text t = .ok name) (hclass : name.bind input.class? = none)
    (hnodup : (g.values.names ++ answered input t).Nodup)
    (hvalues : g'.values = g.values.set (preambleKey input.text t) "") :
    ∃ rows : List Row, g'.values.entries = g.values.entries ++ rows.map Row.entry ∧
      Labels input t [] rows := by
  have hanswered : answered input t = [preambleKey input.text t] := by
    rw [answered, if_pos htype, hname]
    cases name with
    | none => rfl
    | some name =>
      have hclass : input.class? name = none := hclass
      simp [hclass]
  have hnew : preambleKey input.text t ∉ g.values.names := by
    rw [hanswered] at hnodup
    exact fun hkey => disjoint_of_nodup_append hnodup hkey (.head _)
  have hkey : preambleKey input.text t ∈ places input.text t :=
    answered_sublist.subset (by rw [hanswered]; exact .head _)
  refine ⟨[⟨preambleKey input.text t, [], ""⟩], ?_, ?_, .refl _, ?_⟩
  · rw [hvalues, Table.entries_set_of_notMem hnew]
    rfl
  · rw [hanswered]
    exact .refl _
  · intro r hr
    cases mem_singleton.mp hr
    exact ⟨hkey, .inr rfl, fun _ => rfl, .nil⟩

theorem Adds.rows (h : Adds input t g g') (htop : t ∈ input.tops)
    (hnodup : (g.values.names ++ answered input t).Nodup) :
    (∃ rows : List Row, g'.values.entries = g.values.entries ++ rows.map Row.entry ∧
      Labels input t (topParts input g.statics t) rows) ∧ g'.statics = staticsAfter input g.statics t := by
  have himplementation : implementationTypes.contains t.type = true → t.type ≠ "declaration" := by
    intro htype hdeclaration
    rw [hdeclaration] at htype
    exact absurd htype (by decide)
  have hplain : ∀ type ∈ codeTypes, t.type = type → type ≠ "declaration" →
      topParts input g.statics t = [] := by
    rintro type hcode rfl hne
    exact topParts_of_ne (classAt?_of_plain (plain_of_code _ hcode)) hne
  cases h with
  | @listed name cls htype hname hclass hadds =>
    have hanswered : answered input t =
        preambleKey input.text t :: (methodNodes t).map (codeKey input.text) := by
      rw [answered, if_pos htype, hname]
      simp [hclass]
    have hasked : answered input t = asked input.text t := by
      rw [hanswered, asked, if_pos htype, hname]
    have hstatics : g'.statics = g.statics := by
      cases hadds with
      | intro _ _ _ hstatics => exact hstatics
    rw [topParts_of_class ((classAt?_eq htype hname).trans hclass),
      staticsAfter_of_ne (himplementation htype)]
    exact ⟨hadds.rows (Input.mem_of_class? hclass).1 htype hasked hanswered hnodup, hstatics⟩
  | unlisted htype hname hclass hvalues hstatics =>
    rw [topParts_of_ne ((classAt?_eq htype hname).trans hclass) (himplementation htype),
      staticsAfter_of_ne (himplementation htype)]
    exact ⟨rows_of_unlisted htype hname hclass hnodup hvalues, hstatics⟩
  | included htype htext hvalues hstatics =>
    have hwritten := Written.included htop htype htext
    rw [hplain _ (by decide) htype (by decide), staticsAfter_of_ne (by simp [htype])]
    exact ⟨rows_of_code (by simp [htype, codeTypes]) hnodup hvalues hwritten.composed fun _ => rfl, hstatics⟩
  | function htype htext hvalues hstatics =>
    have hwritten := Written.function htop htype htext
    rw [hplain _ (by decide) htype (by decide), staticsAfter_of_ne (by simp [htype])]
    exact ⟨rows_of_code (by simp [htype, codeTypes]) hnodup hvalues hwritten.composed fun _ => rfl, hstatics⟩
  | prototype htype hprototype hvalues hstatics =>
    have hsettled : settled? input g.statics t = none := by simp [settled?, hprototype]
    have hparts : declarationParts input g.statics t = [] := by simp [declarationParts, hprototype]
    rw [topParts_of_declaration htype, hparts, staticsAfter, hsettled]
    exact ⟨rows_of_code (by simp [htype, codeTypes]) hnodup hvalues .nil fun _ => rfl, hstatics⟩
  | @settled name v text htype hprototype hname hsettles htext hvalues hstatics =>
    obtain ⟨cls, hcls, hv⟩ := exists_of_settles? hsettles
    have hsettled : settled? input g.statics t = some v := (settled?_eq htype hprototype hname).trans hsettles
    have hcomposed : Composed input (declarationParts input g.statics t)
        (if v.type.isObject then staticText v else text) := by
      simp only [declarationParts, hprototype, hsettled, Bool.false_eq_true, if_false]
      split
      · exact (Written.static hcls hv).composed
      · exact (Written.declaration htop htype htext).composed
    rw [topParts_of_declaration htype, staticsAfter, hsettled]
    exact ⟨rows_of_code (by simp [htype, codeTypes]) hnodup hvalues hcomposed (by simp [htype]),
      hstatics⟩
  | declared htype hprototype hname hsettles htext hvalues hstatics =>
    have hsettled : settled? input g.statics t = none := (settled?_eq htype hprototype hname).trans hsettles
    have hparts : declarationParts input g.statics t = declaredParts input.text t := by
      simp [declarationParts, hprototype, hsettled]
    have hwritten := Written.declaration htop htype htext
    rw [topParts_of_declaration htype, hparts, staticsAfter, hsettled]
    exact ⟨rows_of_code (by simp [htype, codeTypes]) hnodup hvalues hwritten.composed (by simp [htype]),
      hstatics⟩
  | silent htype hother hvalues hstatics =>
    have hdeclaration : t.type ≠ "declaration" := by
      intro hdeclaration
      exact hother (by simp [hdeclaration])
    have hcode : t.type ∉ codeTypes := hother
    have hanswered : answered input t = [] := by
      rw [answered, htype]
      simp [hcode]
    rw [topParts_of_ne (classAt?_of_plain htype) hdeclaration, staticsAfter_of_ne hdeclaration]
    refine ⟨⟨[], ?_, ?_, .refl _, ?_⟩, hstatics⟩
    · rw [hvalues, map_nil, append_nil]
    · rw [hanswered]
      exact .refl _
    · intro r hr
      cases hr

theorem AddsAll.rows (h : AddsAll input ts g g') (hts : ts ⊆ input.tops)
    (hnodup : (g.values.names ++ ts.flatMap (answered input)).Nodup) :
    ∃ rows : List Row, g'.values.entries = g.values.entries ++ rows.map Row.entry ∧
      (rows.map (·.key)).Perm (ts.flatMap (answered input)) ∧
      (rows.flatMap (·.parts)).Perm (partsFrom input g.statics ts) ∧
      ∀ r ∈ rows, ∃ t ∈ ts, RowAt input t r := by
  induction h with
  | nil =>
    refine ⟨[], by simp, by simp, by simp [partsFrom], fun r hr => ?_⟩
    cases hr
  | @cons t ts g g₁ g' hadds _ ih =>
    rw [flatMap_cons] at hnodup
    obtain ⟨htop, hrest⟩ := cons_subset.mp hts
    have hown : (g.values.names ++ answered input t).Nodup := by
      rw [← append_assoc] at hnodup
      exact hnodup.of_append_left
    obtain ⟨⟨rows, hentries, hkeys, hparts, hrows⟩, hstatics⟩ := hadds.rows htop hown
    have hnames : g₁.values.names = g.values.names ++ rows.map (·.key) := by
      rw [Table.names, hentries, map_append, map_map]
      rfl
    have hperm : (g₁.values.names ++ ts.flatMap (answered input)).Perm
        (g.values.names ++ (answered input t ++ ts.flatMap (answered input))) := by
      rw [hnames, append_assoc]
      exact (hkeys.append_right _).append_left _
    obtain ⟨rest, hrestEntries, hrestKeys, hrestParts, hrestRows⟩ := ih hrest (hperm.nodup_iff.mpr hnodup)
    refine ⟨rows ++ rest, ?_, ?_, ?_, ?_⟩
    · rw [hrestEntries, hentries, map_append, append_assoc]
    · rw [map_append, flatMap_cons]
      exact hkeys.append hrestKeys
    · rw [flatMap_append, partsFrom, ← hstatics]
      exact hparts.append hrestParts
    · intro r hr
      rcases mem_append.mp hr with hr | hr
      · exact ⟨t, .head _, hrows r hr⟩
      · obtain ⟨u, hu, hat⟩ := hrestRows r hr
        exact ⟨u, .tail _ hu, hat⟩

end ObjcLowering.Patched
