import ObjcLowering.Proofs.Lowering.Runs

/-!
The functions that messages call follow from the module, the surroundings and the message alone.
-/

namespace ObjcLowering.Lowering

open Ast List

variable {n : Node}

def IsCast (text : String) : Prop := text = "" ∨ ∃ type, text = "(" ++ type ++ ")"

def IsCall (f text : String) : Prop :=
  ∃ cast args, IsCast cast ∧ text = cast ++ (f ++ "(" ++ args ++ ")")

def receiver? (n : Node) : Option Node := n.inner.head?.filter fun r => !r.isNull

def functionOf (cls : Name) (n : Node) : String := cls.plain ++ "_" ++ cSelector n.selector.plain

def hasClassMethod (m : Module) (cls selector : Name) : Bool :=
  ((m.class? cls).map fun c =>
    c.methods.any fun x => x.selector == selector && x.isClassMethod).getD false

def assumedClass (env : Env) (n : Node) : Except Fault Name :=
  match receiver? n with
  | some r => receiverClass env.module env.cls r
  | none => .ok env.cls.name

def inlineFunction (accessor : InlineAccessor) (n : Node) : String :=
  inlineName accessor.cls (cSelector n.selector.plain) accessor.suffix

def tableMacro (n : Node) : String := "OZ_PROTOCOL_SEND_" ++ cSelector n.selector.plain

theorem tableMacro_of_selector (h : n.selector = .text sel) :
    tableMacro n = "OZ_PROTOCOL_SEND_" ++ cSelector sel := by
  delta tableMacro
  rw [h, Json.plain]

theorem functionOf_of_selector (cls : Name) (h : n.selector = .text sel) :
    functionOf cls n = cls.plain ++ "_" ++ cSelector sel := by
  delta functionOf
  rw [h, Json.plain]

def instanceCallee (env : Env) (n : Node) : Except Fault String := do
  match ← knownReceiver env.module (receiver? n) with
  | some (_, cls) =>
    match inlineAccessor? cls n.selector, dispatchOf env.module n.selector with
    | some accessor, _ => return inlineFunction accessor n
    | none, .table => return functionOf (definingClass env.module cls n.selector) n
    | none, .direct => return functionOf (definingClass env.module (← assumedClass env n) n.selector) n
  | none =>
    match dispatchOf env.module n.selector with
    | .table => return tableMacro n
    | .direct => return functionOf (definingClass env.module (← assumedClass env n) n.selector) n

def classCallee (env : Env) (n : Node) : Except Fault String := do
  let cls := (← n.attrs.classType.get).qual.getD ""
  let key ← cls.asKey
  return cls.plain ++ "_" ++ (if hasClassMethod env.module key n.selector then "cls_" else "")
    ++ cSelector n.selector.plain

def callee (env : Env) (n : Node) : Except Fault String := do
  let kind ← n.receiverKind.textOr .unfit
  if Text.begins "super" kind then return functionOf ((stated? env.cls.superclass).getD env.root) n
  else if kind = "class" then classCallee env n
  else instanceCallee env n

theorem callee_of_instance (h : n.receiverKind = "instance") : callee env n = instanceCallee env n := by
  rw [callee, h]
  rfl

def IsRefused (n : Node) : Prop := n.receiverKind = "class" ∧ n.selector = "initialize"

structure IsMessage (n : Node) : Prop where
  selector : ∃ text, sentSelector n = .ok text
  children : ∃ ns, n.children = .ok ns
  type : ∃ type, resultType n = .ok type

def PartsYield (expr : Node → Lower String) (env : Env) (n : Node) : Prop :=
  ∀ part ∈ n.inner, ∀ s, ∃ text s', Yields (expr part) env s text s'

structure Writes (env : Env) (n : Node) (f : String) : Prop where
  isCall : ∀ {expr s text s'}, Yields (lowerMessage expr n) env s text s' → IsCall f text
  exists_text : ∀ {expr s t}, IsMessage n → Yields (noteRelease n) env s () t →
    PartsYield expr env n → ∃ text s', Yields (lowerMessage expr n) env s text s'

theorem sentSelector_eq_ok (h : sentSelector n = .ok sel) : sel = cSelector n.selector.plain := by
  unfold sentSelector at h
  cases hselector : n.selector with
  | text t =>
    rw [hselector] at h
    cases h
    rfl
  | _ =>
    rw [hselector] at h
    cases h

theorem isCall_callWith {cast : String} (h : IsCast cast) (f first : String) (rest : List String) :
    IsCall f (cast ++ callWith f first rest) := by
  refine ⟨cast, first ++ String.join (rest.map (", " ++ ·)), h, ?_⟩
  simp [callWith, String.append_assoc]

theorem isCast_resultCast {own cast : String} (h : resultCast n own = .ok cast) : IsCast cast := by
  obtain ⟨type, -, hcast⟩ := bind_eq_ok.mp h
  rw [pure_eq_ok] at hcast
  subst hcast
  split
  · exact .inr ⟨_, rfl⟩
  · exact .inl rfl

theorem exists_resultCast (h : IsMessage n) (own : String) : ∃ cast, resultCast n own = .ok cast := by
  obtain ⟨type, htype⟩ := h.type
  exact ⟨_, by rw [resultCast, htype]; rfl⟩

theorem exists_yields_mapM (hnodes : nodes ⊆ n.inner) (h : PartsYield expr env n) (s : State) :
    ∃ texts s', Yields (nodes.mapM expr) env s texts s' := by
  induction nodes generalizing s with
  | nil => exact ⟨[], s, yields_mapM_nil.mpr ⟨rfl, rfl⟩⟩
  | cons part nodes ih =>
    obtain ⟨hpart, hnodes⟩ := cons_subset.mp hnodes
    obtain ⟨text, t, htext⟩ := h part hpart s
    obtain ⟨texts, s', htexts⟩ := ih hnodes t
    exact ⟨text :: texts, s', yields_mapM_cons.mpr ⟨text, t, texts, htext, htexts, rfl⟩⟩

/-- Every result of the computation is a call of `f`, and there is one if the data of the message are
of the right kind and its parts can be written. -/
structure Sends (expr : Node → Lower String) (env : Env) (n : Node) (f : String) (a : Lower String) :
    Prop where
  isCall : ∀ {s text s'}, Yields a env s text s' → IsCall f text
  runs : IsMessage n → PartsYield expr env n → ∀ s, ∃ text s', Yields a env s text s'

namespace Sends

theorem pure (h : IsCall f text) : Sends expr env n f (pure text) where
  isCall hrun := by
    obtain ⟨rfl, -⟩ := yields_pure.mp hrun
    exact h
  runs _ _ s := ⟨text, s, yields_pure.mpr ⟨rfl, rfl⟩⟩

theorem bind (ha : IsMessage n → PartsYield expr env n → ∀ s, ∃ x s', Yields a env s x s')
    (hmore : ∀ x, Sends expr env n f (more x)) : Sends expr env n f (a >>= more) where
  isCall hrun := by
    obtain ⟨x, t, -, hx⟩ := yields_bind.mp hrun
    exact (hmore x).isCall hx
  runs hmessage hparts s := by
    obtain ⟨x, t, hx⟩ := ha hmessage hparts s
    obtain ⟨text, s', hrun⟩ := (hmore x).runs hmessage hparts t
    exact ⟨text, s', yields_bind.mpr ⟨x, t, hx, hrun⟩⟩

theorem read (h : Sends expr env n f (more env)) : Sends expr env n f (read >>= more) where
  isCall hrun := h.isCall (yields_read_bind.mp hrun)
  runs hmessage hparts s := h.runs hmessage hparts s

theorem liftM {e : Except Fault α} (he : IsMessage n → ∃ x, e = .ok x)
    (hmore : ∀ x, e = .ok x → Sends expr env n f (more x)) : Sends expr env n f (liftM e >>= more) where
  isCall hrun := by
    obtain ⟨x, hx, hrun⟩ := yields_liftM_bind.mp hrun
    exact (hmore x hx).isCall hrun
  runs hmessage hparts s := by
    obtain ⟨x, hx⟩ := he hmessage
    obtain ⟨text, s', hrun⟩ := (hmore x hx).runs hmessage hparts s
    exact ⟨text, s', yields_liftM_bind.mpr ⟨x, hx, hrun⟩⟩

theorem value (h : Sends expr env n f (more x)) : Sends expr env n f (Pure.pure x >>= more) := h

theorem parts (hnodes : nodes ⊆ n.inner) (hmore : ∀ texts, Sends expr env n f (more texts)) :
    Sends expr env n f (nodes.mapM expr >>= more) :=
  bind (fun _ hparts s => exists_yields_mapM hnodes hparts s) hmore

theorem part (hr : r ∈ n.inner)
    (hmore : ∀ text, Sends expr env n f (more text)) : Sends expr env n f (expr r >>= more) :=
  bind (fun _ hparts s => hparts r hr s) hmore

theorem modify (hmore : Sends expr env n f (more ⟨⟩)) : Sends expr env n f (modify g >>= more) :=
  bind (fun _ _ s => ⟨⟨⟩, g s, yields_modify.mpr rfl⟩) fun _ => hmore

theorem freshTemp (hmore : ∀ k, Sends expr env n f (more k)) : Sends expr env n f (freshTemp >>= more) :=
  bind (fun _ _ s => ⟨s.temps, { s with temps := s.temps + 1 }, rfl⟩) hmore

theorem selector {more : String → Lower String}
    (hmore : Sends expr env n f (more (cSelector n.selector.plain))) :
    Sends expr env n f (Lowering.sentSelector n >>= fun sel => more sel) := by
  apply liftM (fun hmessage => hmessage.selector)
  intro sel hsel
  rw [sentSelector_eq_ok hsel]
  exact hmore

end Sends

theorem sends_sendSuper :
    Sends expr env n (functionOf ((stated? env.cls.superclass).getD env.root) n)
      (sendSuper expr n) := by
  apply Sends.read
  apply Sends.liftM fun hmessage => hmessage.type
  intro type htype
  apply Sends.parts (List.Subset.refl _)
  intro args
  apply Sends.selector
  apply Sends.pure
  apply isCall_callWith
  split
  · exact .inr ⟨_, rfl⟩
  · exact .inl rfl

theorem sends_sendClass (h : classCallee env n = .ok f) (hselector : n.selector ≠ "initialize") :
    Sends expr env n f (sendClass expr n) := by
  obtain ⟨type, htype, h⟩ := bind_eq_ok.mp h
  obtain ⟨key, hkey, h⟩ := bind_eq_ok.mp h
  rw [pure_eq_ok] at h
  subst h
  apply Sends.liftM fun _ => ⟨type, htype⟩
  intro type' htype'
  obtain rfl : type = type' := Except.ok.inj (htype.symm.trans htype')
  dsimp only
  rw [if_neg (c := (n.selector == "initialize") = true) (by simpa using hselector)]
  apply Sends.read
  apply Sends.liftM fun _ => ⟨key, hkey⟩
  intro key' hkey'
  obtain rfl : key = key' := Except.ok.inj (hkey.symm.trans hkey')
  apply Sends.parts (List.Subset.refl _)
  intro args
  apply Sends.selector
  apply Sends.pure
  refine ⟨"", Text.join ", " args, .inl rfl, ?_⟩
  rw [String.empty_append]
  rfl

theorem sends_sendInline (hr : r ∈ n.inner) :
    Sends expr env n (inlineFunction accessor n) (sendInline expr n r accessor) := by
  apply Sends.liftM fun hmessage => exists_resultCast hmessage _
  intro cast hcast
  apply Sends.part hr
  intro self
  apply Sends.parts (tail_sublist _).subset
  intro args
  apply Sends.selector
  exact Sends.pure (isCall_callWith (isCast_resultCast hcast) _ _ _)

theorem sends_sendKnown (hr : r ∈ n.inner) :
    Sends expr env n (functionOf (definingClass env.module cls n.selector) n)
      (sendKnown expr n r cls) := by
  apply Sends.read
  apply Sends.liftM fun hmessage => exists_resultCast hmessage _
  intro cast hcast
  apply Sends.part hr
  intro self
  apply Sends.parts (tail_sublist _).subset
  intro args
  apply Sends.selector
  exact Sends.pure (isCall_callWith (isCast_resultCast hcast) _ _ _)

theorem receiver?_mem (h : receiver? n = some r) : r ∈ n.inner :=
  mem_of_mem_head? (Option.mem_filter_iff.mp h).1

theorem sends_sendTable :
    Sends expr env n (tableMacro n) (sendTable expr n (receiver? n)) := by
  apply Sends.read
  apply Sends.liftM fun hmessage => exists_resultCast hmessage _
  intro cast hcast
  have hargs : ∀ self, Sends expr env n (tableMacro n) (do
      let args ← n.inner.tail.mapM expr
      return cast ++ callWith ("OZ_PROTOCOL_SEND_" ++ (← sentSelector n)) self args) := by
    intro self
    apply Sends.parts (tail_sublist _).subset
    intro args
    apply Sends.selector
    exact Sends.pure (isCall_callWith (isCast_resultCast hcast) _ _ _)
  cases hreceiver : receiver? n with
  | none => exact hargs ""
  | some r =>
    apply Sends.part (receiver?_mem hreceiver)
    intro value
    apply Sends.freshTemp
    intro k
    apply Sends.modify
    exact hargs _

theorem sends_sendDirect (h : assumedClass env n = .ok cls) :
    Sends expr env n (functionOf (definingClass env.module cls n.selector) n)
      (sendDirect expr n (receiver? n)) := by
  have hargs : ∀ self, Sends expr env n (functionOf (definingClass env.module cls n.selector) n) (do
      let args ← n.inner.tail.mapM expr
      return callWith (s!"{definingClass env.module cls n.selector}_" ++ (← sentSelector n)) self
        args) := by
    intro self
    apply Sends.parts (tail_sublist _).subset
    intro args
    apply Sends.selector
    have hcall := isCall_callWith (.inl rfl)
      (functionOf (definingClass env.module cls n.selector) n) self args
    rw [String.empty_append] at hcall
    exact Sends.pure hcall
  unfold assumedClass at h
  apply Sends.read
  cases hreceiver : receiver? n with
  | none =>
    rw [hreceiver] at h
    cases h
    apply Sends.value
    dsimp only
    split
    · exact Sends.modify (hargs "")
    · exact hargs ""
  | some r =>
    rw [hreceiver] at h
    apply Sends.liftM fun _ => ⟨cls, h⟩
    intro cls' hcls'
    obtain rfl : cls = cls' := Except.ok.inj (h.symm.trans hcls')
    dsimp only
    split
    · exact Sends.modify (Sends.part (receiver?_mem hreceiver) fun value => hargs _)
    · exact Sends.part (receiver?_mem hreceiver) fun value => hargs _

theorem knownReceiver_eq_some (h : knownReceiver m receiver = .ok (some (r, cls))) : r ∈ receiver := by
  cases receiver with
  | none => cases h
  | some receiver =>
    simp only [knownReceiver] at h
    cases hc : concreteClass? m receiver with
    | error f =>
      rw [hc] at h
      cases h
    | ok c =>
      rw [hc] at h
      cases c with
      | none => cases h
      | some c =>
        cases h
        rfl

theorem sends_sendInstance (h : instanceCallee env n = .ok f) :
    Sends expr env n f (sendInstance expr n) := by
  obtain ⟨known, hknown, h⟩ := bind_eq_ok.mp h
  apply Sends.read
  apply Sends.liftM fun _ => ⟨known, hknown⟩
  intro known' hknown'
  obtain rfl : known = known' := Except.ok.inj (hknown.symm.trans hknown')
  cases known with
  | none =>
    cases hdispatch : dispatchOf env.module n.selector with
    | table =>
      simp only [hdispatch] at h
      cases h
      exact sends_sendTable
    | direct =>
      simp only [hdispatch] at h
      obtain ⟨cls, hcls, h⟩ := bind_eq_ok.mp h
      cases h
      exact sends_sendDirect hcls
  | some p =>
    obtain ⟨r, cls⟩ := p
    have hr : r ∈ n.inner := receiver?_mem (knownReceiver_eq_some hknown)
    cases haccessor : inlineAccessor? cls n.selector with
    | some accessor =>
      simp only [haccessor] at h
      cases h
      simp only [Option.bind_some, haccessor, Option.map_some]
      exact sends_sendInline hr
    | none =>
      simp only [Option.bind_some, haccessor, Option.map_none]
      cases hdispatch : dispatchOf env.module n.selector with
      | table =>
        simp only [haccessor, hdispatch] at h
        cases h
        exact sends_sendKnown hr
      | direct =>
        simp only [haccessor, hdispatch] at h
        obtain ⟨assumed, hassumed, h⟩ := bind_eq_ok.mp h
        cases h
        exact sends_sendDirect hassumed

theorem writes_of_callee (h : callee env n = .ok f) (hrefused : ¬ IsRefused n) : Writes env n f := by
  obtain ⟨kind, hkind, h⟩ := bind_eq_ok.mp h
  have hsends : ∀ expr, Sends expr env n f (if Text.begins "super" kind then sendSuper expr n
      else if kind = "class" then sendClass expr n else sendInstance expr n) := by
    intro expr
    split at h
    · next hsuper =>
      rw [if_pos hsuper]
      cases h
      exact sends_sendSuper
    · next hsuper =>
      rw [if_neg hsuper]
      split at h
      · next hclass =>
        subst hclass
        rw [if_pos rfl]
        apply sends_sendClass h
        intro hselector
        exact hrefused ⟨by cases hk : n.receiverKind <;> simp_all [Json.textOr], hselector⟩
      · next hclass =>
        rw [if_neg hclass]
        exact sends_sendInstance h
  constructor
  · intro expr s text s' hrun
    -- past the checks of the selector and the parts and the note of a release, which write nothing
    obtain ⟨-, t, -, hrun⟩ := yields_bind.mp hrun
    obtain ⟨-, t, -, hrun⟩ := yields_bind.mp hrun
    obtain ⟨-, t, -, hrun⟩ := yields_bind.mp hrun
    obtain ⟨kind', hkind', hrun⟩ := yields_liftM_bind.mp hrun
    obtain rfl : kind = kind' := Except.ok.inj (hkind.symm.trans hkind')
    exact (hsends expr).isCall hrun
  · intro expr s t hmessage hrelease hparts
    obtain ⟨text, s', hrun⟩ := (hsends expr).runs hmessage hparts t
    obtain ⟨sel, hsel⟩ := hmessage.selector
    obtain ⟨ns, hns⟩ := hmessage.children
    refine ⟨text, s', ?_⟩
    apply yields_bind.mpr ⟨(), s, yields_discard.mpr ⟨sel, yields_liftM.mpr ⟨hsel, rfl⟩⟩, ?_⟩
    apply yields_bind.mpr ⟨(), s, yields_discard.mpr ⟨ns, yields_liftM.mpr ⟨hns, rfl⟩⟩, ?_⟩
    apply yields_bind.mpr ⟨(), t, hrelease, ?_⟩
    exact yields_liftM_bind.mpr ⟨kind, hkind, hrun⟩

end ObjcLowering.Lowering
