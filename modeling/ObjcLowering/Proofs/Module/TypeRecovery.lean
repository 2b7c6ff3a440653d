import ObjcLowering.Module.Complete
import ObjcLowering.Proofs.Nodes
import ObjcLowering.Proofs.Tables
import ObjcLowering.Proofs.Texts
import ObjcLowering.TypeArguments.OfFile

/-! Recovering type arguments by the name of a declaration alone. -/

namespace ObjcLowering

open Text List Table

namespace TypeChars

theorem length_foldl_addOutsideGroups_le (s back : List Char) :
    (s.foldl addOutsideGroups back).length ≤ back.length + s.length := by
  induction s generalizing back with
  | nil => exact Nat.le_refl _
  | cons c s ih =>
    have hstep : (addOutsideGroups back c).length ≤ back.length + 1 := by
      unfold addOutsideGroups
      split
      · split
        · next hdrop =>
          have := (dropWhile_sublist (!isAngle ·) (l := back)).length_le
          rw [hdrop, length_cons] at this
          omega
        · exact Nat.le_refl _
      · exact Nat.le_refl _
    have := ih (addOutsideGroups back c)
    rw [foldl_cons, length_cons]
    omega

theorem length_replace_nil_le (p s : List Char) : (Chars.replace p [] s).length ≤ s.length := by
  have hfrom : ∀ skip, (Chars.replaceFrom p [] skip s).length ≤ s.length := by
    intro skip
    fun_induction Chars.replaceFrom p [] skip s with
    | case1 => exact Nat.le_refl _
    | case2 k _ s ih => exact Nat.le_succ_of_le ih
    | case3 c s _ ih => exact Nat.le_succ_of_le ih
    | case4 c s _ ih => exact Nat.succ_le_succ ih
  unfold Chars.replace
  split
  · exact Nat.le_refl _
  · exact hfrom 0

theorem length_eraseQualifiers_le (s : List Char) : (eraseQualifiers s).length ≤ s.length := by
  unfold eraseQualifiers
  generalize ownershipQualifiers = qs
  induction qs generalizing s with
  | nil => exact Nat.le_refl _
  | cons q qs ih => exact (ih _).trans (length_replace_nil_le q.toList s)

theorem length_strip_le (s : List Char) : (strip s).length ≤ s.length := by
  refine (length_trim_le _).trans ?_
  rw [eraseGroups, length_reverse]
  refine (length_foldl_addOutsideGroups_le _ []).trans ?_
  simpa using length_eraseQualifiers_le s

theorem length_le_of_mem_splitBy (h : part ∈ Chars.splitBy sep s) : part.length ≤ s.length := by
  induction s generalizing part with
  | nil =>
    cases mem_singleton.mp h
    exact Nat.le_refl _
  | cons c s ih =>
    rw [Chars.splitBy] at h
    split at h
    · rcases mem_cons.mp h with rfl | h
      · exact Nat.zero_le _
      · exact Nat.le_succ_of_le (ih h)
    · cases hrest : Chars.splitBy sep s with
      | nil =>
        rw [hrest] at h
        cases mem_singleton.mp h
        exact Nat.succ_le_succ (Nat.zero_le _)
      | cons first rest =>
        rw [hrest] at h ih
        rcases mem_cons.mp h with rfl | h
        · exact Nat.succ_le_succ (ih (.head _))
        · exact Nat.le_succ_of_le (ih (.tail _ h))

theorem length_le_of_mem_blockParams (h : param ∈ blockParams s) : param.length ≤ s.length := by
  have htrim := length_trim_le s
  unfold blockParams at h
  split at h
  · next rest hs =>
    rw [hs, length_cons] at htrim
    split at h
    · dsimp only at h
      split at h
      · cases h
      · obtain ⟨part, hpart, rfl⟩ := mem_map.mp h
        have hdrop : rest.dropLast.length ≤ rest.length := by simp
        have := length_trim_le part
        have := length_le_of_mem_splitBy hpart
        omega
    · cases h
  · cases h

theorem toC_fuel (hn : s.length < n) (hk : s.length < k) : toC n s = toC k s := by
  induction n generalizing k s with
  | zero => exact absurd hn (Nat.not_lt_zero _)
  | succ n ih =>
    cases k with
    | zero => exact absurd hk (Nat.not_lt_zero _)
    | succ k =>
      rw [toC, toC]
      cases hcut : Chars.cut? blockMark (strip s) with
      | none => rfl
      | some parts =>
        have hlength := length_of_cut? hcut
        have hstrip := length_strip_le s
        have hmark : blockMark.length = 3 := rfl
        have hresult := length_trim_le parts.1
        have hparams : (blockParams parts.2).map (toC n) = (blockParams parts.2).map (toC k) := by
          refine map_congr_left fun param hparam => ?_
          have := length_le_of_mem_blockParams hparam
          exact ih (by omega) (by omega)
        simp only [hparams, ih (s := Chars.trim parts.1) (k := k) (by omega) (by omega)]

theorem toC_congr (h : strip s = strip t) : toC n s = toC n t := by
  cases n with
  | zero => exact h
  | succ n => rw [toC, toC, h]

end TypeChars

theorem SourceType.cType_eq_of_stripped_eq {t u : SourceType} (h : t.stripped = u.stripped) :
    t.cType = u.cType := by
  have hstrip : TypeChars.strip t.spelling.toList = TypeChars.strip u.spelling.toList :=
    String.ofList_injective h
  let fuel := max t.spelling.length u.spelling.length + 1
  have hfuel : ∀ v : SourceType, v.spelling.length < fuel →
      TypeChars.toC (v.spelling.length + 1) v.spelling.toList = TypeChars.toC fuel v.spelling.toList := by
    intro v hv
    rw [← String.length_toList] at hv ⊢
    exact TypeChars.toC_fuel (Nat.lt_succ_self _) hv
  rw [cType, cType, hfuel t (by omega), hfuel u (by omega), TypeChars.toC_congr hstrip]

namespace TypeArguments

variable {generics types : Table String String}

def Extracted (fs : Files) (paths : List Path) (generics : Table String String) : Prop :=
  paths.foldlM (fun (t : Table String String) path => do return t.merge (← ofFile fs path)) {} = .ok generics

/-- Wherever a syntax tree marks a type with arguments, the text there has arguments. -/
def SpellsArguments (fs : Files) (paths : List Path) : Prop :=
  ∀ path ∈ paths, ∀ source, fs.find? path = some source →
    ∀ t ∈ (fs.treeOf source).preorder, t.type = "generic_specifier" →
      ∀ text, t.text source = .ok text → (SourceType.mk (.text (text ++ " *"))).typeArguments ≠ []

section Values

variable {P : String → Prop}

section

variable (h : ∀ v ∈ types.values, P v)

include h

theorem forall_values_set (htype : P type) :
    ∀ v ∈ (types.set key type).values, P v := by
  intro v hv
  obtain ⟨name, hmem⟩ := mem_values.mp hv
  rcases eq_or_mem_of_mem_set hmem with heq | hmem
  · cases heq
    exact htype
  · exact h v (mem_values.mpr ⟨name, hmem⟩)

theorem forall_values_merge
    (hu : ∀ v ∈ u.values, P v) : ∀ v ∈ (types.merge u).values, P v := by
  obtain ⟨entries⟩ := u
  unfold Table.merge
  dsimp only
  induction entries generalizing types with
  | nil => exact h
  | cons e entries ih =>
    refine ih (forall_values_set h (hu e.2 ?_)) fun v hv => hu v ?_
    · exact .head _
    · exact .tail _ hv

theorem forall_values_setType
    (htype : P type) : ∀ v ∈ (setType types key type name).values, P v := by
  unfold setType
  split
  · split
    · exact h
    · exact forall_values_set h htype
  · exact h

theorem forall_values_addGenericType (ht : ∀ text, t.text source = .ok text → P (text ++ " *"))
    (hadd : addGenericType source types t above = .ok types') : ∀ v ∈ types'.values, P v := by
  obtain ⟨text, htext, hadd⟩ := bind_eq_ok.mp hadd
  have hset : ∀ (e : Except Fault (Option String)) (key : String),
      (do return setType types key (text ++ " *") (← e)) = Except.ok types' →
        ∀ v ∈ types'.values, P v := by
    intro e key he
    obtain ⟨name, -, hname⟩ := bind_eq_ok.mp he
    cases hname
    exact forall_values_setType h (ht text htext)
  have hkeep : (Except.ok types : Except Fault (Table String String)) = .ok types' →
      ∀ v ∈ types'.values, P v := by
    intro heq
    cases heq
    exact h
  cases above with
  | nil => exact hkeep hadd
  | cons parent rest =>
    dsimp only at hadd
    split at hadd
    · exact hset _ _ hadd
    · exact hset _ _ hadd
    · exact hset _ _ hadd
    · cases rest with
      | nil => exact hkeep hadd
      | cons owner rest =>
        dsimp only at hadd
        split at hadd
        · exact hset _ _ hadd
        · exact hkeep hadd
    · split at hadd
      · split at hadd
        · exact hset _ _ hadd
        · split at hadd
          · exact hset _ _ hadd
          · exact hkeep hadd
      · exact hkeep hadd
    · exact hkeep hadd

end

mutual

theorem forall_values_addGenerics {types types' : Table String String} :
    (t : Tree) → (∀ v ∈ types.values, P v) →
    (∀ g ∈ t.preorder, g.type = "generic_specifier" → ∀ text, g.text source = .ok text → P (text ++ " *")) →
    addGenerics source above types t = .ok types' → ∀ v ∈ types'.values, P v
  | .node type a b cs f, h, ht, hadd => by
    rw [addGenerics] at hadd
    by_cases htype : type = "generic_specifier"
    · rw [if_pos htype] at hadd
      exact forall_values_addGenericType h (ht _ (.head _) htype) hadd
    · rw [if_neg htype] at hadd
      exact forall_values_addGenericsList cs h (fun g hg => ht g (.tail _ hg)) hadd

theorem forall_values_addGenericsList {types types' : Table String String} :
    (ts : List Tree) → (∀ v ∈ types.values, P v) →
    (∀ g ∈ Tree.preorderList ts, g.type = "generic_specifier" →
      ∀ text, g.text source = .ok text → P (text ++ " *")) →
    addGenericsList source above types ts = .ok types' → ∀ v ∈ types'.values, P v
  | [], h, _, hadd => by
    cases hadd
    exact h
  | t :: ts, h, ht, hadd => by
    obtain ⟨types₁, hfirst, hrest⟩ := bind_eq_ok.mp hadd
    have h₁ := forall_values_addGenerics t h (fun g hg => ht g (mem_append_left _ hg)) hfirst
    exact forall_values_addGenericsList ts h₁ (fun g hg => ht g (mem_append_right _ hg)) hrest

end

end Values

theorem Extracted.typeArguments_ne_nil (h : Extracted fs paths generics) (hspelt : SpellsArguments fs paths) :
    ∀ text ∈ generics.values, (SourceType.mk (.text text)).typeArguments ≠ [] := by
  suffices hfold : ∀ types : Table String String,
      (∀ text ∈ types.values, (SourceType.mk (.text text)).typeArguments ≠ []) →
      paths.foldlM (fun (t : Table String String) path => do return t.merge (← ofFile fs path)) types
        = .ok generics →
      ∀ text ∈ generics.values, (SourceType.mk (.text text)).typeArguments ≠ [] by
    exact hfold {} (fun _ h => absurd h not_mem_nil) h
  clear h
  induction paths with
  | nil =>
    intro types htypes h
    cases h
    exact htypes
  | cons path paths ih =>
    intro types htypes h
    obtain ⟨types₁, hstep, hrest⟩ := foldlM_cons_eq_ok.mp h
    obtain ⟨own, hown, hmerge⟩ := bind_eq_ok.mp hstep
    cases hmerge
    refine ih (fun p hp => hspelt p (.tail _ hp)) _ (forall_values_merge htypes ?_) hrest
    unfold ofFile at hown
    cases hfile : fs.find? path with
    | none =>
      rw [hfile] at hown
      cases hown
      exact fun _ h => absurd h not_mem_nil
    | some source =>
      rw [hfile] at hown
      exact forall_values_addGenerics _ (fun _ h => absurd h not_mem_nil)
        (hspelt path (.head _) source hfile) hown

structure Declared where
  keys : List Name
  type : SourceType

def keysOf (cls : ClassDecl) (p : Property) : List Name :=
  if p.serial.isSome then propertyKeys cls p else [p.name]

def declaredByCallable (name : Name) (returnType : SourceType) (params : List Param) : List Declared :=
  ⟨[returnKey name], returnType⟩ :: params.map fun q => ⟨[q.name], q.type⟩

def declaredByMethod (cls : ClassDecl) (x : Method) : List Declared :=
  match x.synthesized with
  | none => declaredByCallable x.selector x.returnType x.params
  | some p =>
    if x.params.isEmpty then [⟨keysOf cls p, x.returnType⟩]
    else ⟨[returnKey x.selector], x.returnType⟩ :: x.params.map fun q => ⟨keysOf cls p, q.type⟩

def declaredByClass (cls : ClassDecl) : List Declared :=
  cls.ivars.map (fun v => ⟨[v.name], v.type⟩) ++ cls.properties.map (fun p => ⟨keysOf cls p, p.type⟩)
    ++ cls.methods.flatMap (declaredByMethod cls)

def declared (m : Module) : List Declared :=
  m.classes.values.flatMap declaredByClass
    ++ m.functions.flatMap fun f => declaredByCallable f.name f.returnType f.params

def SharesTypes (cls : ClassDecl) : Prop :=
  ∀ x ∈ cls.methods, ∀ p, x.synthesized = some p →
    if x.params.isEmpty then x.returnType = p.type else ∀ q ∈ x.params, q.type = p.type

def cTypes (m : Module) : List String := (declaredTypes m).map fun d => d.2.cType

def Declared.settled (generics : Table String String) (d : Declared) : SourceType :=
  d.keys.foldl (enrich generics) d.type

theorem types_callable (name : Name) (returnType : SourceType) (params : List Param) :
    (callableTypes name returnType params).map (·.2)
      = (declaredByCallable name returnType params).map (·.type) := by
  simp [callableTypes, declaredByCallable]

theorem types_method (cls : ClassDecl) (x : Method) :
    (callableTypes x.selector x.returnType x.params).map (·.2)
      = (declaredByMethod cls x).map (·.type) := by
  unfold declaredByMethod
  split
  · exact types_callable x.selector x.returnType x.params
  · split
    · next hparams => simp [callableTypes, isEmpty_iff.mp hparams]
    · simp [callableTypes]

theorem types_declared (m : Module) : (declaredTypes m).map (·.2) = (declared m).map (·.type) := by
  rw [declaredTypes, declared, map_append, map_append, map_flatMap, map_flatMap,
    map_flatMap, map_flatMap]
  refine congrArg₂ _ (flatMap_congr fun c _ => ?_) (flatMap_congr fun f _ => ?_)
  · simp only [declaredByClass, map_append, map_map, map_flatMap]
    exact congrArg₂ _ rfl (flatMap_congr fun x _ => types_method c x)
  · exact types_callable f.name f.returnType f.params

theorem settled_callable (generics : Table String String) (name : Name) (returnType : SourceType)
    (params : List Param) :
    (callableTypes name (enrich generics returnType (returnKey name))
        (params.map (enrichParam generics))).map (·.2)
      = (declaredByCallable name returnType params).map (Declared.settled generics) := by
  simp [callableTypes, declaredByCallable, enrichParam, Declared.settled]

theorem settled_method (hcls : SharesTypes cls) (hx : x ∈ cls.methods) (generics : Table String String) :
    (callableTypes x.selector (enrichMethod generics cls x).returnType
        (enrichMethod generics cls x).params).map (·.2)
      = (declaredByMethod cls x).map (Declared.settled generics) := by
  unfold enrichMethod declaredByMethod
  cases hmade : x.synthesized with
  | none => exact settled_callable generics x.selector x.returnType x.params
  | some p =>
    have hshared := hcls x hx p hmade
    have htype : (enrichProperty generics cls p).type = (keysOf cls p).foldl (enrich generics) p.type := rfl
    by_cases hparams : x.params.isEmpty
    · rw [if_pos hparams] at hshared
      simp [callableTypes, isEmpty_iff.mp hparams, Declared.settled, hshared, htype]
    · rw [if_neg hparams] at hshared
      simp only [Option.map_some, hparams, Bool.false_eq_true, if_false, callableTypes, map_cons,
        map_map, htype]
      refine congrArg₂ _ rfl (map_congr_left fun q hq => ?_)
      simp [Declared.settled, hshared q hq]

theorem types_enrichGenerics (h : ∀ c ∈ m.classes.values, SharesTypes c) :
    (declaredTypes (enrichGenerics m)).map (·.2) = (declared m).map (Declared.settled m.generics) := by
  have hclass : ∀ c ∈ m.classes.values,
      ((enrichClass m.generics c).ivars.map (fun v => (v.name, v.type))
        ++ (enrichClass m.generics c).properties.map (fun p => (p.name, p.type))
        ++ (enrichClass m.generics c).methods.flatMap
          fun x => callableTypes x.selector x.returnType x.params).map (·.2)
        = (declaredByClass c).map (Declared.settled m.generics) := by
    intro c hc
    simp only [enrichClass, declaredByClass, map_append, map_map, map_flatMap,
      flatMap_map]
    refine congrArg₂ _ rfl (flatMap_congr fun x hx => ?_)
    have hselector : (enrichMethod m.generics c x).selector = x.selector := by
      unfold enrichMethod
      split
      · rfl
      · split <;> rfl
    rw [hselector]
    exact settled_method (h c hc) hx m.generics
  rw [declaredTypes, declared, enrichGenerics, values_mapValues, map_append, map_append,
    map_flatMap, map_flatMap, map_flatMap, map_flatMap, flatMap_map,
    flatMap_map]
  refine congrArg₂ _ (flatMap_congr hclass) (flatMap_congr fun f _ => ?_)
  exact settled_callable m.generics f.name f.returnType f.params

def recorded? (generics : Table String String) (keys : List Name) : Option String :=
  keys.findSome? (given? generics)

/-- What the source gives for a declaration without type arguments has the C type of the declaration. -/
def Declared.Agrees (generics : Table String String) (d : Declared) : Prop :=
  d.type.typeArguments = [] → ∀ text, recorded? generics d.keys = some text →
    (SourceType.mk (.text text)).cType = d.type.cType

theorem mem_values_of_given? (h : given? generics name = some text) : text ∈ generics.values := by
  obtain ⟨hfound, -⟩ := Option.filter_eq_some_iff.mp h
  obtain ⟨key, -, hkey⟩ := Option.bind_eq_some_iff.mp hfound
  exact mem_values.mpr ⟨key, mem_of_find? hkey⟩

theorem foldl_enrich_of_ne_nil (h : type.typeArguments ≠ []) (keys : List Name) :
    keys.foldl (enrich generics) type = type := by
  induction keys with
  | nil => rfl
  | cons key keys ih =>
    have hkey : enrich generics type key = type := by
      unfold enrich
      split
      · rw [if_neg (by simpa using h)]
      · rfl
    rw [foldl_cons, hkey, ih]

theorem settled_of_nil (hgenerics : ∀ text ∈ generics.values, (SourceType.mk (.text text)).typeArguments ≠ [])
    {d : Declared} (h : d.type.typeArguments = []) :
    d.settled generics = ((recorded? generics d.keys).map fun text => ⟨.text text⟩).getD d.type := by
  obtain ⟨keys, type⟩ := d
  unfold Declared.settled recorded?
  dsimp only at h ⊢
  induction keys with
  | nil => rfl
  | cons key keys ih =>
    rw [foldl_cons, findSome?_cons, enrich]
    cases hgiven : given? generics key with
    | none => exact ih
    | some text =>
      simp only [h, isEmpty_nil, if_true, Option.map_some, Option.getD_some]
      exact foldl_enrich_of_ne_nil (hgenerics text (mem_values_of_given? hgiven)) keys

theorem cType_settled_iff
    (hgenerics : ∀ text ∈ generics.values, (SourceType.mk (.text text)).typeArguments ≠ []) (d : Declared) :
    (d.settled generics).cType = d.type.cType ↔ d.Agrees generics := by
  by_cases hnil : d.type.typeArguments = []
  · rw [settled_of_nil hgenerics hnil]
    cases hrecorded : recorded? generics d.keys with
    | none => simp [Declared.Agrees, hrecorded]
    | some text => simp [Declared.Agrees, hrecorded, hnil]
  · have hsame : d.settled generics = d.type := foldl_enrich_of_ne_nil hnil d.keys
    simp [Declared.Agrees, hsame, hnil]

/-- Recovery leaves all C types as they are if and only if each type that is looked up under the name
of a declaration has the C type of that declaration; so it does if type arguments and qualifiers are all
that the compiler has erased. -/
theorem recovery_keeps_cTypes_iff (hshared : ∀ c ∈ m.classes.values, SharesTypes c)
    (hextracted : Extracted fs paths m.generics) (hspelt : SpellsArguments fs paths) :
    (cTypes (enrichGenerics m) = cTypes m ↔ ∀ d ∈ declared m, d.Agrees m.generics) ∧
    ((∀ d ∈ declared m, d.type.typeArguments = [] → ∀ text, recorded? m.generics d.keys = some text →
      (SourceType.mk (.text text)).stripped = d.type.stripped) → cTypes (enrichGenerics m) = cTypes m) := by
  have hgenerics := hextracted.typeArguments_ne_nil hspelt
  have hiff : cTypes (enrichGenerics m) = cTypes m ↔ ∀ d ∈ declared m, d.Agrees m.generics := by
    have hcTypes : ∀ m : Module, cTypes m = ((declaredTypes m).map (·.2)).map SourceType.cType := by
      intro m
      rw [map_map]
      rfl
    rw [hcTypes, hcTypes, types_enrichGenerics hshared, types_declared, map_map, map_map,
      map_inj_left]
    exact forall₂_congr fun d _ => cType_settled_iff hgenerics d
  refine ⟨hiff, fun herased => hiff.mpr fun d hd hnil text htext => ?_⟩
  exact SourceType.cType_eq_of_stripped_eq (herased d hd hnil text htext)

/-! A class with an array of boxes, whose source gives their class. -/

def shelfSource : String := "@interface Shelf : OZObject \x7b\n\tOZArray<Box *> *items;\n\x7d\n@end\n"

def shelfTree : Tree :=
  .node "class_interface" 0 58 [
    .node "instance_variables" 28 55 [
      .node "instance_variable" 31 53 [
        .node "struct_declaration" 31 53 [
          .node "generic_specifier" 31 45 [] none,
          .node "struct_declarator" 46 52 [
            .node "pointer_declarator" 46 52 [.node "identifier" 47 52 [] none] none] none] none] none]
      none] none

def shelfFiles : Files :=
  { entries := [(.ofText "Shelf.m", shelfSource)], trees := [(shelfSource, [shelfTree])] }

def shelfTypes : Table String String := ⟨[("items", "OZArray<Box *> *")]⟩

def labels : Property :=
  { name := "labels", type := ⟨"OZArray *"⟩, ivar := some "_labels", serial := some 0 }

def shelf (type : String) : Module :=
  { classes := ⟨[("OZObject", { name := "OZObject" }),
      ("Shelf", { name := "Shelf", superclass := some "OZObject"
                  ivars := [{ name := "items", type := ⟨"OZArray *"⟩ }]
                  properties := [labels]
                  methods := [Properties.getter labels, Properties.setter labels "setLabels:"] }),
      ("Counter", { name := "Counter", superclass := some "OZObject"
                    ivars := [{ name := "items", type := ⟨.text type⟩ }] })]⟩
    generics := shelfTypes }

theorem extracted_shelf : Extracted shelfFiles [.ofText "Shelf.m"] shelfTypes := by
  have hentries : ([Path.ofText "Shelf.m"].foldlM (fun (t : Table String String) path => do
      return t.merge (← ofFile shelfFiles path)) {}).toOption.map entries = some shelfTypes.entries := by
    decide +kernel
  obtain ⟨types, htypes, heq⟩ := toOption_map_eq_some.mp hentries
  rw [Extracted, htypes, show types = shelfTypes from congrArg mk heq]

theorem spellsArguments_shelf : SpellsArguments shelfFiles [.ofText "Shelf.m"] := by
  have hall : ∀ t ∈ (shelfFiles.treeOf shelfSource).preorder, t.type = "generic_specifier" →
      (t.text shelfSource).toOption.all fun text =>
        !(SourceType.mk (.text (text ++ " *"))).typeArguments.isEmpty := by
    decide +kernel
  have hfile : shelfFiles.find? (.ofText "Shelf.m") = some shelfSource := by decide +kernel
  intro path hpath source hsource t ht htype text htext
  cases mem_singleton.mp hpath
  cases Option.some.inj (hfile.symm.trans hsource)
  simpa [htext, Except.toOption] using hall t ht htype

theorem sharesTypes_shelf (type : String) : ∀ c ∈ (shelf type).classes.values, SharesTypes c := by
  simp [shelf, values, SharesTypes, Properties.getter, Properties.setter]

theorem shelf_keeps_cTypes :
    (shelf "OZArray *").generics.find? "items" = some "OZArray<Box *> *" ∧
      cTypes (enrichGenerics (shelf "OZArray *")) = cTypes (shelf "OZArray *") := by
  refine ⟨by decide +kernel, ?_⟩
  refine (recovery_keeps_cTypes_iff (sharesTypes_shelf _) extracted_shelf spellsArguments_shelf).2 ?_
  have hall : ∀ d ∈ declared (shelf "OZArray *"), (recorded? shelfTypes d.keys).all fun text =>
      (SourceType.mk (.text text)).stripped == d.type.stripped := by
    decide +kernel
  intro d hd _ text htext
  have hagree := hall d hd
  rw [show recorded? shelfTypes d.keys = some text from htext] at hagree
  simpa using hagree

theorem counter_becomes_array :
    Extracted shelfFiles [.ofText "Shelf.m"] (shelf "int").generics ∧ "int" ∈ cTypes (shelf "int") ∧
      cTypes (enrichGenerics (shelf "int")) ≠ cTypes (shelf "int") := by
  have hbefore : "int" ∈ cTypes (shelf "int") := by decide +kernel
  have hafter : "int" ∉ cTypes (enrichGenerics (shelf "int")) := by decide +kernel
  refine ⟨extracted_shelf, hbefore, fun heq => hafter ?_⟩
  rwa [heq]

end TypeArguments

end ObjcLowering
