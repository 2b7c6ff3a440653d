import ObjcLowering.Proofs.Lowering.StoreOwnership

/-! Assignments to instance variables. -/

namespace ObjcLowering

open List

/-- A value is assigned to a place, as a store that minds ownership or as a plain expression. -/
inductive Code.Assigns (code : List Code) (place : String) : String → Prop
  | stored : .assign depth place v ∈ code → Assigns code place v
  | written : .line depth (place ++ " = " ++ v ++ ";") ∈ code → Assigns code place v

section

variable {α : Type} {f : α → Except Fault Bool} {xs : List α}

theorem exists_of_anyM (h : xs.anyM f = .ok true) : ∃ x ∈ xs, f x = .ok true := by
  induction xs with
  | nil => cases h
  | cons x xs ih =>
    obtain ⟨first, hfirst, h⟩ := bind_eq_ok.mp h
    cases first with
    | true => exact ⟨x, by simp, hfirst⟩
    | false =>
      obtain ⟨y, hy, hfy⟩ := ih h
      exact ⟨y, by simp [hy], hfy⟩

theorem forall_of_anyM (h : xs.anyM f = .ok false) : ∀ x ∈ xs, f x = .ok false := by
  induction xs with
  | nil => simp
  | cons x xs ih =>
    obtain ⟨first, hfirst, h⟩ := bind_eq_ok.mp h
    cases first with
    | true => cases h
    | false => simpa [hfirst] using ih h

end

namespace Lowering

open Ast

variable {env : Env} {s s' t u : State} {depth k : Nat} {n e lhs rhs c : Node} {code : List Code}
  {i : Name} {holder : Option String} {x place value : String} {expr : Node → Lower String}

def DeclaresStrong (cls : ClassDecl) (i : Name) : Prop :=
  ∃ v ∈ cls.ivars, v.name = i ∧ v.type.isStrongObject = true

def IsStrong (env : Env) (i : Name) : Prop :=
  ∃ cls, (env.module.chain env.cls).find? (fun c => hasIvar c i) = some cls ∧ DeclaresStrong cls i

theorem hasIvar_of_declaresStrong (h : DeclaresStrong cls i) : hasIvar cls i = true := by
  obtain ⟨v, hv, hname, -⟩ := h
  exact any_eq_true.mpr ⟨v, hv, by simp [hname]⟩

theorem chain_eq_cons (m : Module) (cls : ClassDecl) : ∃ rest, m.chain cls = cls :: rest := by
  unfold Module.chain
  rw [Module.chainFrom]
  split
  · exact ⟨_, rfl⟩
  · exact ⟨[], rfl⟩

theorem isStrong_of_declaresStrong (h : DeclaresStrong env.cls i) : IsStrong env i := by
  obtain ⟨rest, hchain⟩ := chain_eq_cons env.module env.cls
  refine ⟨env.cls, ?_, h⟩
  rw [hchain, find?_cons, hasIvar_of_declaresStrong h]

theorem ivarPath_of_declaresStrong (h : DeclaresStrong env.cls i) :
    ivarPath env.module env.cls i = "" := by
  obtain ⟨rest, hchain⟩ := chain_eq_cons env.module env.cls
  rw [ivarPath, hchain, findIdx?_cons, if_pos (hasIvar_of_declaresStrong h)]
  rfl

inductive Loads : Node → String → Prop
  | var {n : Node} {x : String} : n.kind = "DeclRefExpr" → Unexpanded n →
      n.referencedName = .ok (.text x) → Loads n x
  | load {n c : Node} {rest : List Node} {x : String} : n.kind = "ImplicitCastExpr" →
      n.attrs.castKind = some "LValueToRValue" → Unexpanded n → n.inner = c :: rest → Loads c x →
      Loads n x

/-- The expression is the instance variable `i`, of the object itself or of the one that another
variable refers to. -/
inductive NamesIvar (e : Node) (i : Name) : Option String → Prop
  | own : e.kind = "ObjCIvarRefExpr" → Unexpanded e → e.attrs.decl.get = .ok d →
      d.name.getD "" = i → ivarBase? e = .ok none → NamesIvar e i none
  | other {d : DeclRef} {c : Node} {rest : List Node} {x : String} : e.kind = "ObjCIvarRefExpr" →
      Unexpanded e → e.attrs.decl.get = .ok d → d.name.getD "" = i → e.attrs.isFreeIvar = false →
      e.inner = c :: rest → Loads c x → x ≠ "" → x ≠ "self" → NamesIvar e i (some x)

theorem Loads.text (h : Loads c x) (hc : Yields ((level k).expr c) env s value t) :
    value = x ∧ t = s := by
  induction h generalizing k value with
  | @var n x hkind hn hx =>
    cases k with
    | zero => exact absurd hc yields_throw
    | succ k =>
      have hlower := lowerKind_of_unexpanded hn (by rw [hkind]; decide) hc
      simp only [lowerKind, hkind, yields_liftM_bind, hx, Except.ok.injEq, exists_eq_left', yields_liftM] at hlower
      exact ⟨(Json.text.inj (textOr_eq_ok hlower.1)).symm, hlower.2⟩
  | @load n c rest x hkind hcast hn hinner _ ih =>
    cases k with
    | zero => exact absurd hc yields_throw
    | succ k =>
      have hlower := lowerKind_of_unexpanded hn (by rw [hkind]; decide) hc
      simp only [lowerKind, hkind, lowerImplicitCast, hinner, implicitCastText, Node.castKind, hcast] at hlower
      obtain ⟨cast, hcast, hlower⟩ := yields_liftM_bind.mp hlower
      obtain ⟨type, -, hcast⟩ := bind_eq_ok.mp hcast
      obtain rfl := pure_eq_ok.mp hcast
      obtain ⟨text, t', htext, hlower⟩ := yields_bind.mp hlower
      obtain ⟨rfl, rfl⟩ := yields_pure.mp hlower
      simpa using ih htext

theorem Loads.descend (h : Loads c x)
    (hm : c.descend (fun a => a.kind == "ImplicitCastExpr" && a.castKind == some "LValueToRValue") = .ok m) :
    m.referencedName = .ok (.text x) := by
  induction h with
  | @var n x hkind hn hx =>
    cases n with
    | mk a ns =>
      rw [Node.kind_mk] at hkind
      rw [Node.descend, if_neg (by simp [hkind]), Node.check_eq_ok] at hm
      rw [hm.2, hx]
  | @load n c rest x hkind hcast hn hinner _ ih =>
    cases n with
    | mk a ns =>
      rw [Node.inner_mk] at hinner
      rw [Node.kind_mk] at hkind
      rw [Node.descend, if_pos (by simpa [hkind, Node.attrs] using hcast), hinner, Node.descendFirst] at hm
      exact ih hm

theorem ivarBase_of_loads (hfree : e.attrs.isFreeIvar = false)
    (hinner : e.inner = c :: rest) (h : Loads c x) (hheld : x ≠ "") (hself : x ≠ "self")
    (hbase : ivarBase? e = .ok base) : base = some c := by
  simp only [ivarBase?, hinner, hfree, Bool.false_eq_true, if_false] at hbase
  obtain ⟨m, hm, hbase⟩ := bind_eq_ok.mp hbase
  rw [h.descend hm] at hbase
  obtain ⟨name, hname, hbase⟩ := bind_eq_ok.mp hbase
  cases hname
  have hother : (!(Json.text x).holds || Json.text x == "self") = false := by
    simp [Json.holds, hheld, hself]
  rw [hother] at hbase
  exact (pure_eq_ok.mp hbase).symm

def IvarText (env : Env) (i : Name) (holder : Option String) (place : String) : Prop :=
  match holder with
  | none => place = "self->" ++ ivarPath env.module env.cls i ++ i.plain
  | some x => place = x ++ ("->" ++ i.plain) ∨ place = "/* access error: " ++ i.plain ++ " */"

theorem NamesIvar.text (h : NamesIvar e i holder) (hplace : Yields ((level k).expr e) env s place u) :
    IvarText env i holder place := by
  cases k with
  | zero => exact absurd hplace yields_throw
  | succ k =>
    cases h with
    | own hkind hn hd hi hbase =>
      have hlower := lowerKind_of_unexpanded hn (by rw [hkind]; decide) hplace
      simp only [lowerKind, hkind, lowerIvar, yields_read_bind, yields_liftM_bind, hd, hbase, Except.ok.injEq,
        exists_eq_left', yields_pure, hi] at hlower
      exact hlower.1
    | @other d c rest x hkind hn hd hi hfree hinner hloads hheld hself =>
      have hlower := lowerKind_of_unexpanded hn (by rw [hkind]; decide) hplace
      simp only [lowerKind, hkind, lowerIvar, yields_read_bind, yields_liftM_bind, hd, Except.ok.injEq,
        exists_eq_left', hi] at hlower
      obtain ⟨base, hbase, hlower⟩ := hlower
      obtain rfl := ivarBase_of_loads hfree hinner hloads hheld hself hbase
      dsimp only at hlower
      split at hlower
      · rw [fail, yields_modify_bind] at hlower
        exact .inr (yields_pure.mp hlower).1
      · obtain ⟨text, t, htext, hlower⟩ := yields_bind.mp hlower
        obtain ⟨rfl, -⟩ := hloads.text htext
        exact .inl (yields_pure.mp hlower).1

theorem NamesIvar.kind (h : NamesIvar e i holder) : e.kind = "ObjCIvarRefExpr" := by
  cases h <;> assumption

theorem NamesIvar.strongIvar (h : NamesIvar e i holder) (hivar : strongIvar? cls e = .ok ivar) :
    ivar = some i ∧ DeclaresStrong cls i ∨ ivar = none ∧ ¬ DeclaresStrong cls i := by
  obtain ⟨d, hd, hi⟩ : ∃ d, e.attrs.decl.get = .ok d ∧ d.name.getD "" = i := by
    cases h with
    | own _ _ hd hi => exact ⟨_, hd, hi⟩
    | other _ _ hd hi => exact ⟨_, hd, hi⟩
  have hbelow : e.belowCasts = e := Node.unwrap_of_notMem (by rw [h.kind]; decide)
  simp only [strongIvar?, hbelow, h.kind, bne_self_eq_false, Bool.false_eq_true, if_false] at hivar
  obtain ⟨d', hd', hivar⟩ := bind_eq_ok.mp hivar
  rw [hd] at hd'
  cases hd'
  rw [hi] at hivar
  obtain ⟨strong, hstrong, hivar⟩ := bind_eq_ok.mp hivar
  cases strong with
  | true =>
    obtain ⟨v, hv, hstrong⟩ := exists_of_anyM hstrong
    obtain ⟨type, htype, hstrong⟩ := bind_eq_ok.mp hstrong
    obtain rfl := checked_eq_ok htype
    obtain ⟨hv, hname⟩ := mem_filter.mp hv
    exact .inl ⟨(pure_eq_ok.mp hivar).symm, v, hv, by simpa using hname, pure_eq_ok.mp hstrong⟩
  | false =>
    refine .inr ⟨(pure_eq_ok.mp hivar).symm, ?_⟩
    rintro ⟨v, hv, hname, hobject⟩
    have hweak := forall_of_anyM hstrong v (mem_filter.mpr ⟨hv, by simp [hname]⟩)
    obtain ⟨type, htype, hweak⟩ := bind_eq_ok.mp hweak
    obtain rfl := checked_eq_ok htype
    rw [pure_eq_ok, hobject] at hweak
    cases hweak

/-- An assignment does what its left side `place` says: this is what gets a value and what is released,
and if the variable is strong, its old value is released and a reference to the new one is kept. -/
def Faithful (env : Env) (i : Name) (place : String) (t s' : State) (rhs : Node) (code : List Code) : Prop :=
  ∃ v, Code.Assigns code place v ∧ (∀ old ∈ Code.released code, old = place) ∧
    (IsStrong env i → place ∈ Code.released code ∧
      (v ∈ Code.retained code ∨ TakesOver env t s' rhs ∨ IsNil rhs))

inductive Prepares : Code → Prop
  | temp (depth : Nat) (decl : TempDecl) : Prepares (.temp depth decl)
  | retain (depth : Nat) (root v : String) : Prepares (.retain depth root v)

theorem prepares_temps {c : Code} (h : c ∈ temps depth t) : Prepares c := by
  obtain ⟨decl, -, rfl⟩ := mem_map.mp h
  exact .temp ..

theorem released_of_prepares (h : ∀ c ∈ front, Prepares c) : Code.released front = [] := by
  refine filterMap_eq_nil_iff.mpr fun c hc => ?_
  cases h c hc <;> rfl

theorem not_assigns_of_prepares (h : ∀ c ∈ front, Prepares c) (place v : String) :
    ¬ Code.Assigns front place v := by
  rintro (hmem | hmem) <;> cases h _ hmem

theorem assigns_append_store (hfront : ∀ c ∈ front, Prepares c) :
    Code.Assigns (front ++ storeCode depth env.root i v) ("self->" ++ i.plain) v' ↔ v' = v := by
  constructor
  · rintro (hstored | hwritten)
    · rcases mem_append.mp hstored with hmem | hmem
      · exact absurd (.stored hmem) (not_assigns_of_prepares hfront _ v')
      · cases hmem with
        | tail _ hmem =>
          cases hmem with
          | head => rfl
          | tail _ hmem => cases hmem
    · rcases mem_append.mp hwritten with hmem | hmem
      · exact absurd (.written hmem) (not_assigns_of_prepares hfront _ v')
      · cases hmem with
        | tail _ hmem =>
          cases hmem with
          | tail _ hmem => cases hmem
  · rintro rfl
    exact .stored (mem_append_right _ (.tail _ (.head _)))

theorem stored_in_self (hvalue : Yields (expr rhs) env s value t)
    (h : Yields (assignIvar expr depth i lhs rhs) env s code s') :
    Code.released code = ["self->" ++ i.plain] ∧ ∃ v,
      (∀ v', Code.Assigns code ("self->" ++ i.plain) v' ↔ v' = v) ∧
      (v ∈ Code.retained code ∨ TakesOver env t s' rhs ∨ IsNil rhs ↔ Site.ivar.Suits env s t rhs) := by
  obtain ⟨front, v, hcode, hfront, hkept⟩ : ∃ front v, code = front ++ storeCode depth env.root i v ∧
      (∀ c ∈ front, Prepares c) ∧ (Code.retained front = [] ∨ v ∈ Code.retained front ∧ HandsOver env t rhs) := by
    cases stored_of_yields h with
    | @param var text t' hover hparam hvalue' =>
      obtain ⟨rfl, rfl⟩ := yields_unique hvalue hvalue'
      refine ⟨temps depth t ++ [.retain depth env.root value], value, by simp, ?_, .inr ⟨?_, ?_⟩⟩
      · simpa [or_imp, forall_and] using ⟨fun c hc => prepares_temps hc, Prepares.retain ..⟩
      · rw [Code.retained_append]
        exact mem_append_right _ (.head _)
      · exact (handsOver_iff hover).mpr (.inl hparam)
    | @«local» var text t' tracked =>
      exact ⟨temps depth t', text, rfl, fun c hc => prepares_temps hc, .inl (retained_temps ..)⟩
    | @other text t' type =>
      refine ⟨temps depth t' ++ [.temp depth ⟨_, _⟩], _, by rw [append_assoc]; rfl, ?_, .inl ?_⟩
      · simpa [or_imp, forall_and] using ⟨fun c hc => prepares_temps hc, Prepares.temp ..⟩
      · rw [Code.retained_append, retained_temps]
        rfl
  subst hcode
  have hretained : Code.retained (front ++ storeCode depth env.root i v) = Code.retained front := by
    rw [Code.retained_append]
    exact append_nil _
  refine ⟨?_, v, fun v' => assigns_append_store hfront, ?_⟩
  · rw [Code.released_append, released_of_prepares hfront]
    rfl
  · rw [hretained]
    rcases hkept with hnil | ⟨hv, hover⟩
    · obtain ⟨v', -, haccounts⟩ := ivar_accounts hvalue h
      rw [accounts_of_retained_nil (hretained.trans hnil)] at haccounts
      rw [hnil, Site.Suits, ← haccounts]
      simp
    · exact ⟨fun _ => .inl hover, fun _ => .inl hv⟩

theorem written_as_expression (hn : Unexpanded n) (hkind : n.kind = "BinaryOperator")
    (hop : n.opcode = "=") (hinner : n.inner = [lhs, rhs])
    (hplace : Yields ((level k).expr lhs) env s place u)
    (h : Yields (lowerExprStmt (level k) depth n) env s code s') :
    Code.released code = [] ∧ ∃ v, Code.Assigns code place v := by
  obtain ⟨text, t, htext, h⟩ := yields_bind.mp h
  obtain ⟨before, t', hbefore, h⟩ := yields_bind.mp h
  obtain ⟨rfl, rfl⟩ := yields_flush.mp hbefore
  obtain ⟨rfl, rfl⟩ := yields_pure.mp h
  have hlower := lowerKind_of_unexpanded hn (by rw [hkind]; decide) htext
  simp only [lowerKind, hkind, binaryText] at hlower
  replace hlower := yields_bind_children hlower
  simp only [hinner] at hlower
  obtain ⟨left, t', hleft, hlower⟩ := yields_bind.mp hlower
  obtain ⟨rfl, rfl⟩ := yields_unique hplace hleft
  obtain ⟨right, t', hright, hlower⟩ := yields_bind.mp hlower
  obtain ⟨rfl, rfl⟩ := yields_pure.mp hlower
  constructor
  · rw [Code.released_append, released_temps]
    rfl
  · have hopcode : toString place ++ " " ++ toString (Json.text "=") ++ " " ++ toString right =
        place ++ " = " ++ right := by
      show place ++ " " ++ "=" ++ " " ++ right = place ++ " = " ++ right
      simp [String.append_assoc]
    have hmem : Code.line depth (place ++ " = " ++ right ++ ";") ∈
        [Code.line depth (toString place ++ " " ++ toString n.opcode ++ " " ++ toString right ++ ";")] := by
      rw [← hopcode, hop]
      exact .head _
    exact ⟨right, .written (mem_append_right _ hmem)⟩

theorem IvarText.eq_self_iff (h : IvarText env i holder place) (hstrong : DeclaresStrong env.cls i)
    (hholder : holder ≠ some "self") : place = "self->" ++ i.plain ↔ holder = none := by
  cases holder with
  | none =>
    have hplace : place = "self->" ++ ivarPath env.module env.cls i ++ i.plain := h
    rw [ivarPath_of_declaresStrong hstrong, String.append_empty] at hplace
    simp [hplace]
  | some x =>
    simp only [reduceCtorEq, iff_false]
    rcases h with rfl | rfl
    · intro heq
      have hlist := congrArg String.toList heq
      rw [show "self->" = "self" ++ "->" from rfl, String.append_assoc] at hlist
      simp only [String.toList_append, append_left_inj] at hlist
      exact hholder (congrArg some (String.toList_inj.mp hlist))
    · intro heq
      have hfirst := congrArg (fun text => text.toList.head?) heq
      simp at hfirst

theorem NamesIvar.holder_ne_self (h : NamesIvar e i holder) : holder ≠ some "self" := by
  cases h with
  | own => simp
  | other _ _ _ _ _ _ _ _ hself => simpa using hself

/-- An assignment to an instance variable does what its left side says if and only if the variable is
not strong, or it is one that the class itself declares, named in the object itself, and the value is
one for which such stores account. -/
theorem ivar_assignment_faithful_iff (hkind : n.kind = "BinaryOperator") (hop : n.opcode = "=")
    (hn : Unexpanded n) (hinner : n.inner = [lhs, rhs]) (hlhs : NamesIvar lhs i holder)
    (hplace : Yields ((level k).expr lhs) env s place u)
    (hvalue : Yields ((level k).expr rhs) env s value t)
    (h : Yields ((level (k + 1)).stmt depth n) env s code s') :
    Faithful env i place t s' rhs code ↔
      ¬ IsStrong env i ∨
        DeclaresStrong env.cls i ∧ holder = none ∧ Site.ivar.Suits env s t rhs := by
  have h := assign_of_yields hkind hop (lowerStmtKind_of_unexpanded hn h)
  replace h := yields_bind_children h
  rw [hinner] at h
  obtain ⟨ivar, hivar, h⟩ := yields_liftM_bind.mp (yields_read_bind.mp h)
  rcases hlhs.strongIvar hivar with ⟨rfl, hown⟩ | ⟨rfl, hown⟩
  · obtain ⟨hreleased, v, hassigns, hkept⟩ := stored_in_self hvalue h
    have hself := (hlhs.text hplace).eq_self_iff hown hlhs.holder_ne_self
    have hstrong := isStrong_of_declaresStrong hown
    simp only [Faithful, hstrong, hown, hreleased, ← hself, ← hkept, mem_singleton, forall_eq,
      not_true_eq_false, false_or, true_and, forall_const]
    constructor
    · rintro ⟨v', hv', rfl, -, hkept'⟩
      rw [(hassigns v').mp hv'] at hkept'
      exact ⟨rfl, hkept'⟩
    · rintro ⟨rfl, hkept'⟩
      exact ⟨v, (hassigns v).mpr rfl, rfl, rfl, hkept'⟩
  · obtain ⟨var, hvar, h⟩ := yields_liftM_bind.mp (yields_get_bind.mp h)
    have hnone : var = none := by
      have hbelow : lhs.belowCasts = lhs := Node.unwrap_of_notMem (by rw [hlhs.kind]; decide)
      simp only [trackedVar?, hbelow, hlhs.kind] at hvar
      exact (pure_eq_ok.mp hvar).symm
    subst hnone
    obtain ⟨hreleased, v, hassigns⟩ := written_as_expression hn hkind hop hinner hplace h
    simp only [Faithful, hown, hreleased, false_and, or_false, not_mem_nil]
    constructor
    · rintro ⟨v', -, -, hstrong⟩ h
      exact hstrong h
    · intro hweak
      exact ⟨v, hassigns, by simp, fun h => absurd h hweak⟩

set_option maxRecDepth 4000 in
/-- `_i = x;` -/
theorem own_ivar_assignment_faithful :
    Faithful .withIvar "_i" "self->_i" { scopes := [["x"]] } { scopes := [["x"]], consumed := ["x"] }
      (.varRef "x" "id") [.release 1 "OZObject" "self->_i", .assign 1 "self->_i" "x"] := by
  have hplace : Yields ((level 3).expr (ivarRef "_i")) .withIvar { scopes := [["x"]] } "self->_i"
      { scopes := [["x"]] } := rfl
  have hvalue : Yields ((level 3).expr (.varRef "x" "id")) .withIvar { scopes := [["x"]] } "x"
      { scopes := [["x"]] } := rfl
  have hcode : Yields ((level 4).stmt 1 (assignTo (ivarRef "_i") (.varRef "x" "id"))) .withIvar
      { scopes := [["x"]] } [.release 1 "OZObject" "self->_i", .assign 1 "self->_i" "x"]
      { scopes := [["x"]], consumed := ["x"] } := rfl
  have hnames : NamesIvar (ivarRef "_i") "_i" none := .own rfl (unexpanded_of_range rfl) rfl rfl rfl
  have hdeclared : DeclaresStrong Env.withIvar.cls "_i" := ⟨_, .head _, rfl, rfl⟩
  refine (ivar_assignment_faithful_iff rfl rfl (unexpanded_of_range rfl) rfl hnames hplace hvalue
    hcode).mpr ?_
  exact .inr ⟨hdeclared, rfl, .inl ⟨"x", denotes_varRef _ _ _, rfl, by decide, .inr ⟨rfl, by simp⟩⟩⟩

def otherIvarRef (holder name : String) : Node :=
  .mk { kind := "ObjCIvarRefExpr", decl := .present { name := some (.text name) } } [.varRef holder "Foo *"]

set_option maxRecDepth 4000 in
/-- `other->_i = x;` -/
theorem other_ivar_assignment_unfaithful :
    Yields ((level 3).expr (otherIvarRef "other" "_i")) .withIvar { scopes := [["x"]] } "other->_i"
        { scopes := [["x"]] } ∧
      Yields ((level 4).stmt 1 (assignTo (otherIvarRef "other" "_i") (.varRef "x" "id"))) .withIvar
        { scopes := [["x"]] } [.release 1 "OZObject" "self->_i", .assign 1 "self->_i" "x"]
        { scopes := [["x"]], consumed := ["x"] } ∧
      ¬ Faithful .withIvar "_i" "other->_i" { scopes := [["x"]] }
        { scopes := [["x"]], consumed := ["x"] } (.varRef "x" "id")
        [.release 1 "OZObject" "self->_i", .assign 1 "self->_i" "x"] := by
  refine ⟨rfl, rfl, ?_⟩
  rintro ⟨v, -, hreleased, -⟩
  exact absurd (hreleased "self->_i" (.head _)) (by decide)

end Lowering

end ObjcLowering
