import ObjcLowering.Proofs.Lowering.Stacks

/-!
What is written where a reference is stored or handed out.
-/

namespace ObjcLowering.Code

def released (code : List Code) : List String :=
  code.filterMap fun
    | .release _ _ value => some value
    | _ => none

@[simp] theorem released_append (code code' : List Code) :
    released (code ++ code') = released code ++ released code' :=
  List.filterMap_append ..

def retained (code : List Code) : List String :=
  code.filterMap fun
    | .retain _ _ value => some value
    | _ => none

@[simp] theorem retained_append (code code' : List Code) :
    retained (code ++ code') = retained code ++ retained code' :=
  List.filterMap_append ..

end ObjcLowering.Code

namespace ObjcLowering.Lowering

open Ast

variable {s s' : State}

def releases (depth : Nat) (root : String) (names : List Name) : List Code :=
  names.map fun name => .release depth root name.plain

@[simp] theorem released_releases (depth : Nat) (root : String) (names : List Name) :
    Code.released (releases depth root names) = names.map Json.plain := by
  induction names with
  | nil => rfl
  | cons name names ih => exact congrArg (List.cons _) ih

def temps (depth : Nat) (s : State) : List Code := s.pending.map (.temp depth)

@[simp] theorem released_temps (depth : Nat) (s : State) : Code.released (temps depth s) = [] := by
  unfold temps
  induction s.pending with
  | nil => rfl
  | cons decl decls ih => exact ih

@[simp] theorem retained_temps (depth : Nat) (s : State) : Code.retained (temps depth s) = [] := by
  unfold temps
  induction s.pending with
  | nil => rfl
  | cons decl decls ih => exact ih

def State.flushed (s : State) : State := { s with pending := [] }

@[simp] theorem yields_flush :
    Yields (flush depth) env s code s' ↔ code = temps depth s ∧ s' = s.flushed := by
  simp only [flush, yields_get_bind, yields_set_bind, yields_pure, temps, State.flushed]

theorem yields_flush_bind :
    Yields (flush depth >>= f) env s r s' ↔ Yields (f (temps depth s)) env s.flushed r s' := by
  simp only [yields_bind, yields_flush]
  constructor
  · rintro ⟨_, _, ⟨rfl, rfl⟩, h⟩
    exact h
  · intro h
    exact ⟨_, _, ⟨rfl, rfl⟩, h⟩

@[simp] theorem yields_root : Yields root env s r s' ↔ r = env.root ∧ s' = s := by
  simp only [root, yields_read_bind, yields_pure]

@[simp] theorem yields_releaseAll : Yields (releaseAll depth names) env s code s' ↔
      code = releases depth env.root names ∧ s' = s := by
  simp only [releaseAll, root, bind_assoc, yields_read_bind, yields_pure_bind, yields_pure, releases]

@[simp] theorem yields_releaseScope :
    Yields (releaseScope depth) env s code s' ↔
      code = releases depth env.root (s.owned (s.scopes.headD [])) ∧ s' = s := by
  simp [releaseScope]

@[simp] theorem yields_releaseLoop :
    Yields (releaseLoop depth) env s code s' ↔
      code = releases depth env.root (s.scopesInLoop.flatMap s.owned) ∧ s' = s := by
  simp [releaseLoop]

def State.ownedAtReturn (s : State) (returned : Option Name) : List Name :=
  (s.scopes.reverse.flatMap s.owned).filter fun name => returned != some name

theorem isTracked_iff : s.isTracked name = true ↔ name ∈ s.scopes.flatten := by
  simp [State.isTracked]

theorem mem_ownedAtReturn : name ∈ s.ownedAtReturn returned ↔
      name ∈ s.scopes.flatten ∧ name ∉ s.consumed ∧ returned ≠ some name := by
  simp only [State.ownedAtReturn, State.owned, List.mem_filter, List.mem_flatMap, List.mem_reverse,
    List.mem_flatten, bne_iff_ne]
  constructor
  · rintro ⟨⟨scope, hscope, hname, hconsumed⟩, hreturned⟩
    exact ⟨⟨scope, hscope, hname⟩, by simpa using hconsumed, hreturned⟩
  · rintro ⟨⟨scope, hscope, hname⟩, hconsumed, hreturned⟩
    exact ⟨⟨scope, hscope, hname, by simpa using hconsumed⟩, hreturned⟩

@[simp] theorem yields_releaseForReturn : Yields (releaseForReturn depth returned) env s code s' ↔
      code = releases depth env.root (s.ownedAtReturn returned) ∧ s' = s := by
  simp [releaseForReturn, State.ownedAtReturn]

def State.entered (s : State) (params : List Param) : State :=
  params.foldl (fun s p => s.track p.name) { s with scopes := [] :: s.scopes }

def State.left (s : State) : State := { s with scopes := s.scopes.tail }

def exitCode (depth : Nat) (root : String) (s : State) (ns : List Node) : List Code :=
  if endsInReturn ns then [] else releases depth root (s.owned (s.scopes.headD []))

@[simp] theorem yields_releaseAtEnd : Yields (releaseAtEnd depth ns) env s code s' ↔
      code = exitCode depth env.root s ns ∧ s' = s := by
  unfold releaseAtEnd exitCode
  split
  · exact yields_pure
  · exact yields_releaseScope

@[simp] theorem yields_openScope :
    Yields (openScope names) env s r s' ↔ s' = { s with scopes := names :: s.scopes } :=
  yields_modify

@[simp] theorem yields_closeScope : Yields closeScope env s r s' ↔ s' = s.left :=
  yields_modify

theorem forM_discard_keeps {f : α → Except Fault β} {xs : List α}
    (h : Yields (xs.forM fun x => discard (liftM (f x) : Lower β)) env s r s') : s' = s := by
  induction xs generalizing s with
  | nil => exact (yields_pure.mp h).2
  | cons x xs ih =>
    obtain ⟨_, t, hx, hxs⟩ := yields_bind.mp h
    obtain ⟨_, hx⟩ := yields_discard.mp hx
    obtain ⟨-, rfl⟩ := yields_liftM.mp hx
    exact ih hxs

theorem retained_of_yields (h : Yields (retainParams depth params) env s code s') :
    code = params.map (fun p => .retain depth env.root p.name.plain) ∧
      s' = params.foldl (fun s p => s.track p.name) s := by
  simp only [retainParams, yields_bind, yields_root, yields_modify, yields_pure] at h
  obtain ⟨_, _, ⟨rfl, rfl⟩, _, _, hkeys, _, _, rfl, rfl, rfl⟩ := h
  rw [forM_discard_keeps hkeys]
  exact ⟨rfl, rfl⟩

theorem entered_of_yields (h : Yields (lowerScope below depth params n) env s code s') :
    ∃ body t, Yields (lowerAll (below.stmt (depth + 1)) n.inner) env (s.entered params) body t ∧
      s' = t.left ∧
      code = params.map (fun p => .retain (depth + 1) env.root p.name.plain) ++ body
        ++ exitCode (depth + 1) env.root t n.inner := by
  simp only [lowerScope, yields_bind, yields_openScope, yields_liftM, yields_releaseAtEnd,
    yields_closeScope, yields_pure] at h
  obtain ⟨_, _, rfl, entry, u, hentry, inside, _, ⟨hinside, rfl⟩, body, t, hbody, exit, _,
    ⟨rfl, rfl⟩, _, _, rfl, rfl, rfl⟩ := h
  obtain ⟨rfl, rfl⟩ := retained_of_yields hentry
  obtain rfl := Node.children_eq_ok hinside
  exact ⟨body, _, hbody, rfl, rfl⟩

theorem yields_lowerLoopBody : Yields (lowerLoopBody below depth n) env s code s' ↔
      ∃ t, Yields (lowerBraced below depth n) env { s with loops := s.scopes.length :: s.loops } code t ∧
        s' = { t with loops := t.loops.tail } := by
  simp only [lowerLoopBody, openLoop, closeLoop, yields_bind, yields_modify, yields_pure]
  constructor
  · rintro ⟨_, _, rfl, body, t, hbody, _, _, rfl, rfl, rfl⟩
    exact ⟨t, hbody, rfl⟩
  · rintro ⟨t, hbody, rfl⟩
    exact ⟨⟨⟩, _, rfl, code, t, hbody, ⟨⟩, _, rfl, rfl, rfl⟩

inductive Returned (expr : Node → Lower String) (env : Env) (depth : Nat) (n : Node) (s : State) :
    List Code → State → Prop
  | bare : n.inner = [] →
      Returned expr env depth n s
        (releases depth env.root (s.ownedAtReturn none) ++ [.returns depth none]) s
  | value {e v : Node} {rest : List Node} {var : Option Name} {text : String} {t : State} :
      n.inner = e :: rest → returnedVar? e = .ok var → returnValue e = .ok v →
      Yields (expr v) env s text t →
      Returned expr env depth n s
        (releases depth env.root (s.ownedAtReturn var) ++ temps depth t
          ++ [.returns depth (some text)]) t.flushed

theorem returned_of_yields (h : Yields (lowerReturn expr depth n) env s code s') :
    Returned expr env depth n s code s' := by
  unfold lowerReturn at h
  split at h
  · next hn =>
    simp only [yields_bind, yields_releaseForReturn, yields_pure] at h
    obtain ⟨_, _, ⟨rfl, rfl⟩, rfl, rfl⟩ := h
    exact .bare hn
  · next e rest hn =>
    simp only [yields_bind, yields_liftM, yields_releaseForReturn, yields_flush, yields_pure] at h
    obtain ⟨var, _, ⟨hvar, rfl⟩, _, _, ⟨rfl, rfl⟩, v, _, ⟨hv, rfl⟩, text, t, ht, _, _, ⟨rfl, rfl⟩,
      rfl, rfl⟩ := h
    exact .value hn hvar hv ht

def declaredName (n : Node) : Name := n.attrs.name.getD "_anon"

theorem checked_eq_ok {t t' : SourceType} (h : t.checked = .ok t') : t' = t := by
  unfold SourceType.checked at h
  split at h
  · cases h
    rfl
  · cases h

def declaredType (n : Node) : Except Fault SourceType := do
  (SourceType.mk (← n.qualTypeOr "int")).checked

def initializer? (n : Node) : Option Node := n.inner.find? fun c => c.kind != "FullComment"

def isShared (n : Node) : Bool := n.inner.any fun c => c.kind == "BlocksAttr"

def isOwner (n : Node) (type : SourceType) : Bool :=
  type.isStrongObject && declaredName n != "self" && !((initializer? n).map isBridgeCast).getD false

def State.declaring (s : State) (n : Node) (type : SourceType) : State :=
  if isOwner n type then s.track (declaredName n) else s

def KeepsValue (env : Env) (n : Node) (type : SourceType) (t : State) (e : Node)
    (retained : Bool) : Prop :=
  (if type.isObject && declaredName n != "self" && t.isTrackedInnermost (declaredName n) then
    isBorrowed env.owning e else .ok false) = .ok retained

inductive Declared (expr : Node → Lower String) (env : Env) (depth : Nat) (n : Node) (s : State) :
    List Code → State → Prop
  | shared : isShared n = true → Declared expr env depth n s [] s
  | bare {type : SourceType} : isShared n = false → declaredType n = .ok type →
      (initializer? n).filter (fun e => !e.isNull) = none →
      Declared expr env depth n s
        [.declare depth (declaredName n).plain (type.declare (declaredName n))]
        (s.declaring n type)
  | value {type : SourceType} {e : Node} {text : String} {t : State} {retained : Bool} :
      isShared n = false → declaredType n = .ok type →
      (initializer? n).filter (fun e => !e.isNull) = some e →
      Yields (expr e) env (s.declaring n type) text t →
      KeepsValue env n type t.flushed e retained →
      Declared expr env depth n s
        (temps depth t
          ++ [.declare depth (declaredName n).plain (type.declare (declaredName n) ++ " = " ++ text)]
          ++ if retained then [.retain depth env.root (declaredName n).plain] else []) t.flushed

def lowerInit (expr : Node → Lower String) (depth : Nat) (n : Node) (type : SourceType) :
    Lower (List Code) :=
  match (initializer? n).filter fun e => !e.isNull with
  | none => return [.declare depth (declaredName n).plain (type.declare (declaredName n))]
  | some e => do
    let value ← expr e
    let before ← flush depth
    let env ← read
    let isKept := type.isObject && declaredName n != "self"
      && (← get).isTrackedInnermost (declaredName n)
    let isRetained ← if isKept then liftM (isBorrowed env.owning e) else pure false
    return before
      ++ [.declare depth (declaredName n).plain (type.declare (declaredName n) ++ " = " ++ value)]
      ++ (if isRetained then [.retain depth env.root (declaredName n).plain] else [])

theorem initialized_of_yields (hshared : isShared n = false) (htype : declaredType n = .ok type)
    (h : Yields (lowerInit expr depth n type) env (s.declaring n type) code s') :
    Declared expr env depth n s code s' := by
  unfold lowerInit at h
  cases hinit : (initializer? n).filter (fun e => !e.isNull) with
  | none =>
    simp only [hinit, yields_pure] at h
    rw [h.1, h.2]
    exact .bare hshared htype hinit
  | some e =>
    simp only [hinit] at h
    obtain ⟨text, t, htext, h⟩ := yields_bind.mp h
    obtain ⟨before, t', hflush, h⟩ := yields_bind.mp h
    obtain ⟨rfl, rfl⟩ := yields_flush.mp hflush
    rw [yields_read_bind, yields_get_bind] at h
    split at h
    · next hkept =>
      obtain ⟨retained, hretained, h⟩ := yields_liftM_bind.mp h
      obtain ⟨rfl, rfl⟩ := yields_pure.mp h
      refine .value hshared htype hinit htext ?_
      rw [KeepsValue, if_pos hkept]
      exact hretained
    · next hkept =>
      rw [yields_pure_bind] at h
      obtain ⟨rfl, rfl⟩ := yields_pure.mp h
      refine .value hshared htype hinit htext ?_
      rw [KeepsValue, if_neg hkept]

theorem declared_of_yields (h : Yields (lowerVarDecl expr depth n) env s code s') :
    Declared expr env depth n s code s' := by
  unfold lowerVarDecl at h
  simp only [yields_liftM_bind] at h
  obtain ⟨raw, hraw, parts, hparts, h⟩ := h
  obtain rfl := Node.children_eq_ok hparts
  split at h
  · next hshared =>
    obtain ⟨rfl, rfl⟩ := yields_pure.mp h
    exact .shared hshared
  · next hshared =>
    rw [Bool.not_eq_true] at hshared
    obtain ⟨type, htype, h⟩ := yields_liftM_bind.mp h
    have hdeclared : declaredType n = .ok type := by
      rw [declaredType, hraw]
      exact htype
    apply initialized_of_yields hshared hdeclared
    unfold State.declaring lowerInit isOwner initializer? declaredName
    split at h
    · next howner =>
      rw [if_pos howner]
      rw [yields_get_bind] at h
      split at h
      · exact yields_modify_bind.mp h
      · obtain ⟨_, t, hkey, htail⟩ := yields_bind.mp h
        obtain ⟨_, hkey⟩ := yields_discard.mp hkey
        obtain ⟨_, rfl⟩ := yields_liftM.mp hkey
        exact yields_modify_bind.mp htail
    · next howner =>
      rw [if_neg howner]
      exact h

theorem yields_assignLocal : Yields (assignLocal expr depth var rhs) env s code s' ↔
      ∃ text t tracked, Yields (expr rhs) env s text t ∧
        trackedVar? t.flushed rhs = .ok tracked ∧ s' = t.flushed.restore var ∧
        code = temps depth t ++ (if tracked.isSome then [.retain depth env.root text] else [])
          ++ [.release depth env.root var.plain, .assign depth var.plain text] := by
  simp only [assignLocal, yields_bind, yields_root, yields_flush, yields_get, yields_liftM,
    yields_modify, yields_pure]
  constructor
  · rintro ⟨_, _, ⟨rfl, rfl⟩, text, t, htext, _, _, ⟨rfl, rfl⟩, _, _, ⟨rfl, rfl⟩, tracked, _,
      ⟨htracked, rfl⟩, _, _, rfl, rfl, rfl⟩
    exact ⟨text, t, tracked, htext, htracked, rfl, rfl⟩
  · rintro ⟨text, t, tracked, htext, htracked, rfl, rfl⟩
    exact ⟨_, _, ⟨rfl, rfl⟩, text, t, htext, _, _, ⟨rfl, rfl⟩, _, _, ⟨rfl, rfl⟩, tracked, _,
      ⟨htracked, rfl⟩, ⟨⟩, _, rfl, rfl, rfl⟩

def storeCode (depth : Nat) (root : String) (ivar : Name) (value : String) : List Code :=
  [.release depth root s!"self->{ivar}", .assign depth s!"self->{ivar}" value]

def handedOver? (rhs : Node) : Except Fault (Option Name) := do
  return (← returnedVar? rhs).filter fun var => var.holds && var != "self"

inductive Stored (expr : Node → Lower String) (env : Env) (depth : Nat) (ivar : Name)
    (lhs rhs : Node) (s : State) : List Code → State → Prop
  | param {var : Name} {text : String} {t : State} : handedOver? rhs = .ok (some var) →
      isParam env var = true → Yields (expr rhs) env s text t →
      Stored expr env depth ivar lhs rhs s
        (temps depth t ++ .retain depth env.root text :: storeCode depth env.root ivar text)
        t.flushed
  | local {var : Name} {text : String} {t : State} {tracked : Bool} :
      handedOver? rhs = .ok (some var) → isParam env var = false → Yields (expr rhs) env s text t →
      t.flushed.checkTracked var = .ok tracked →
      Stored expr env depth ivar lhs rhs s (temps depth t ++ storeCode depth env.root ivar text)
        (if tracked then t.flushed.consume var else t.flushed)
  | other {text : String} {t : State} {raw : Json} : handedOver? rhs = .ok none →
      lhs.belowCasts.qualTypeOr "id" = .ok raw → Yields (expr rhs) env s text t →
      Stored expr env depth ivar lhs rhs s
        (temps depth t
          ++ .temp depth ⟨"_oz_recv" ++ toString t.temps,
              (SourceType.mk raw).cType ++ ("_oz_recv" ++ toString t.temps) ++ " = " ++ text ++ ";"⟩
            :: storeCode depth env.root ivar ("_oz_recv" ++ toString t.temps))
        { t.flushed with temps := t.temps + 1 }

theorem stored_of_yields {ivar : Name} (h : Yields (assignIvar expr depth ivar lhs rhs) env s code s') :
    Stored expr env depth ivar lhs rhs s code s' := by
  unfold assignIvar at h
  obtain ⟨text, t, htext, h⟩ := yields_bind.mp (yields_read_bind.mp h)
  obtain ⟨before, t', hflush, h⟩ := yields_bind.mp h
  obtain ⟨rfl, rfl⟩ := yields_flush.mp hflush
  obtain ⟨returned, hreturned, h⟩ := yields_liftM_bind.mp h
  have hover : handedOver? rhs = .ok (returned.filter fun var => var.holds && var != "self") := by
    rw [handedOver?, hreturned]
    rfl
  split at h
  · next var hvar =>
    rw [hvar] at hover
    split at h
    · next hparam =>
      obtain ⟨rfl, rfl⟩ := yields_pure.mp h
      exact .param hover hparam htext
    · next hparam =>
      rw [yields_get_bind] at h
      obtain ⟨tracked, htracked, h⟩ := yields_liftM_bind.mp h
      have hcode : code = temps depth t ++ storeCode depth env.root ivar text ∧
          s' = if tracked then t.flushed.consume var else t.flushed := by
        cases tracked with
        | true => exact yields_pure.mp (yields_modify_bind.mp h)
        | false => exact yields_pure.mp h
      rw [hcode.1, hcode.2]
      exact .local hover (Bool.eq_false_iff.mpr hparam) htext htracked
  · next hvar =>
    rw [hvar] at hover
    simp only [freshTemp, bind_assoc, yields_get_bind, yields_set_bind, yields_pure_bind,
      yields_liftM_bind] at h
    obtain ⟨raw, hraw, type, htype, h⟩ := h
    obtain ⟨rfl, rfl⟩ := yields_pure.mp h
    rw [checked_eq_ok htype]
    exact .other hover hraw htext

end ObjcLowering.Lowering
