import ObjcLowering.Declarations.Basic
import ObjcLowering.Proofs.Nodes
import ObjcLowering.Proofs.Texts

/-! Initialisers of static variables. -/

namespace ObjcLowering.Declarations

open Ast

structure Literal where
  digits : String
  begins : digits.toList.head?.any Char.isDigit = true
  isFloating : Bool := false

inductive Constant
  | literal (l : Literal)
  | character (code : Int)
  | null
  /-- A cast of zero to a pointer. -/
  | nullCast (isExplicit : Bool) (e : Constant)
  | cast (isExplicit : Bool) (castKind type : String) (h : castKind ≠ "NullToPointer") (e : Constant)
  | paren (e : Constant)
  | unary (op : String) (e : Constant)
  | binary (op : String) (l r : Constant)
  | conditional (c yes no : Constant)

/-- What the constants and operators of C mean. -/
structure Arithmetic (V : Type) where
  literal : String → V
  character : Int → V
  null : V
  cast : String → String → V → V
  unary : String → V → V
  binary : String → V → V → V
  conditional : V → V → V → V

namespace Constant

def eval (A : Arithmetic V) : Constant → V
  | literal l => A.literal l.digits
  | character code => A.character code
  | null | nullCast _ _ => A.null
  | cast _ castKind type _ e => A.cast castKind type (e.eval A)
  | paren e => e.eval A
  | unary op e => A.unary op (e.eval A)
  | binary op l r => A.binary op (l.eval A) (r.eval A)
  | conditional c yes no => A.conditional (c.eval A) (yes.eval A) (no.eval A)

def castNode (isExplicit : Bool) (castKind type : String) (n : Node) : Node :=
  .mk { kind := if isExplicit then "CStyleCastExpr" else "ImplicitCastExpr"
        castKind := some castKind
        type := .present { qual := some type } } [n]

def node : Constant → Node
  | literal l =>
    .mk { kind := if l.isFloating then "FloatingLiteral" else "IntegerLiteral", value := some l.digits } []
  | character code => .mk { kind := "CharacterLiteral", value := some (.int code) } []
  | null => .bare "GNUNullExpr" []
  | nullCast isExplicit e => castNode isExplicit "NullToPointer" "void *" e.node
  | cast isExplicit castKind type _ e => castNode isExplicit castKind type e.node
  | paren e => .bare "ParenExpr" [e.node]
  | unary op e => .mk { kind := "UnaryOperator", opcode := some op } [e.node]
  | binary op l r => .mk { kind := "BinaryOperator", opcode := some op } [l.node, r.node]
  | conditional c yes no => .bare "ConditionalOperator" [c.node, yes.node, no.node]

/-- The signs and the literal of an expression that has nothing else but casts and parentheses; no literal
for a null pointer. -/
def chain? : Constant → Option (Nat × Option Literal)
  | literal l => some (0, some l)
  | null | nullCast _ _ => some (0, none)
  | cast _ _ _ _ e | paren e => e.chain?
  | unary op e => if op = "-" then e.chain?.map fun p => (p.1 + 1, p.2) else none
  | _ => none

def isWrapped : Constant → Bool
  | cast .. | paren _ => true
  | _ => false

def declaration (name type : String) (e : Constant) : Node := .varDecl name type [e.node]

end Constant

def leafText (leaf : Option Literal) : String := leaf.elim "NULL" (·.digits)

def chainText (p : Nat × Option Literal) : String := String.ofList (.replicate p.1 '-') ++ leafText p.2

namespace Arithmetic

def leaf (A : Arithmetic V) (text : String) : V := if text = "NULL" then A.null else A.literal text

/-- A text read as C: a literal with at most one sign. Two signs are a decrement. -/
def read (A : Arithmetic V) (text : String) : Option V :=
  match text.toList with
  | '-' :: cs => if cs.head? = some '-' then none else some (A.unary "-" (A.leaf (String.ofList cs)))
  | cs => some (A.leaf (String.ofList cs))

def signed (A : Arithmetic V) (p : Nat × Option Literal) : V :=
  Nat.iterate (A.unary "-") p.1 (A.leaf (leafText p.2))

end Arithmetic

theorem chainText_succ (k : Nat) (leaf : Option Literal) : chainText (k + 1, leaf) = "-" ++ chainText (k, leaf) := by
  rw [chainText, List.replicate_succ, String.ofList_cons, String.append_assoc]
  rfl

theorem initValueList_node (e : Constant) :
    initValueList [e.node] = e.chain?.map fun p => .text (chainText p) := by
  induction e with
  | literal l =>
    cases hfloating : l.isFloating <;>
      simp [Constant.node, hfloating, initValueList, Constant.chain?, chainText, leafText, Node.attrs]
  | character code => rfl
  | null => rfl
  | nullCast isExplicit e => cases isExplicit <;> rfl
  | cast isExplicit castKind type h e ih =>
    rw [Constant.node, Constant.castNode, initValueList, initValue, ih, Constant.chain?]
    cases isExplicit <;> simp [Node.castKind, Node.attrs, h]
  | paren e ih =>
    rw [Constant.node, Node.bare, initValueList, initValue, ih, Constant.chain?]
    simp
  | unary op e ih =>
    rw [Constant.node, initValueList, initValue, ih, Constant.chain?]
    by_cases hop : op = "-"
    · cases e.chain? <;> simp [Node.opcode, Node.attrs, hop, initValueList, chainText_succ, Json.plain]
    · simp [Node.opcode, Node.attrs, hop, initValueList]
  | binary op l r => rfl
  | conditional c yes no => rfl

theorem leaf_not_signed (leaf : Option Literal) : (leafText leaf).toList.head? ≠ some '-' := by
  cases leaf with
  | none => decide
  | some l =>
    intro h
    have hbegins := l.begins
    rw [show l.digits.toList.head? = some '-' from h] at hbegins
    cases hbegins

theorem read_chainText (A : Arithmetic V) (p : Nat × Option Literal) :
    A.read (chainText p) = if p.1 ≤ 1 then some (A.signed p) else none := by
  obtain ⟨k, leaf⟩ := p
  have hleaf := leaf_not_signed leaf
  unfold Arithmetic.read chainText Arithmetic.signed
  rw [String.toList_append, String.toList_ofList]
  obtain _ | _ | k := k
  · dsimp only [List.replicate_zero, List.nil_append]
    split
    · next h => exact absurd (congrArg List.head? h) hleaf
    · rw [String.ofList_toList]
      rfl
  · refine (if_neg hleaf).trans ?_
    rw [show (List.replicate 0 '-').append (leafText leaf).toList = (leafText leaf).toList from rfl,
      String.ofList_toList]
    rfl
  · rfl

theorem hasInitializer_declaration (name type : String) (e : Constant) (h : e.chain? = none) :
    hasInitializer (e.declaration name type) = .ok e.isWrapped := by
  have hends : Text.ends "Expr" e.node.kind = e.isWrapped := by
    cases e with
    | literal | null | nullCast => cases h
    | cast isExplicit =>
      cases isExplicit <;> (simp [Constant.node, Constant.castNode, Constant.isWrapped]; decide)
    | _ =>
      simp only [Constant.node, Node.bare, Constant.isWrapped, Node.kind_mk]
      decide
  have hchildren : (e.declaration name type).children = .ok [e.node] := by cases e <;> rfl
  have hkind : e.node.attrs.hasTextKind = true := by cases e <;> rfl
  rw [hasInitializer, hchildren, ← hends]
  simp only [bind, Except.bind, List.anyM, hkind]
  cases Text.ends "Expr" e.node.kind <;> rfl

theorem addStatic_declaration (m : Module) (e : Constant) (hname : name ≠ "") (htype : type ≠ "") :
    addStatic m (e.declaration name type) = .ok (match e.chain? with
      | some p => { m with statics := m.statics ++ [⟨.text name, ⟨.text type⟩, some (.text (chainText p))⟩] }
      | none =>
        if e.isWrapped then
          if (SourceType.mk type).isObject then m.warn (initializerWarning name type) else m
        else { m with statics := m.statics ++ [⟨.text name, ⟨.text type⟩, none⟩] }) := by
  have hvalue : initValue (e.declaration name type) = e.chain?.map fun p => .text (chainText p) :=
    initValueList_node e
  have hholds : ∀ {text : String}, text ≠ "" → (Json.text text).holds = true := by simp [Json.holds]
  rw [addStatic, show (e.declaration name type).name = .text name from rfl,
    show (e.declaration name type).qualType = .ok (.text type) from rfl, hvalue, hholds hname]
  cases hchain : e.chain? with
  | some p =>
    simp only [bind, Except.bind, hholds htype, Option.map_some]
    rfl
  | none =>
    simp only [bind, Except.bind, hholds htype, Option.map_none, hasInitializer_declaration _ _ e hchain,
      show (SourceType.mk (.text type)).checked = .ok ⟨.text type⟩ from rfl]
    generalize (SourceType.mk (.text type)).isObject = isObject
    cases e.isWrapped <;> cases isObject <;> rfl

/-- The initialiser of a static variable is kept, or left to its source, exactly if it is a literal under
at most one sign whose casts change nothing, or if it is a cast or in parentheses and has no literal. -/
theorem initializer_kept_iff (A : Arithmetic V) (m : Module) (e : Constant) (hname : name ≠ "")
    (htype : type ≠ "") :
    ∃ m', addStatic m (e.declaration name type) = .ok m' ∧
      ((m'.statics = m.statics ∨ ∃ init, A.read init = some (e.eval A) ∧
          m'.statics = m.statics ++ [⟨.text name, ⟨.text type⟩, some (.text init)⟩]) ↔
        match e.chain? with
        | none => e.isWrapped = true
        | some p => p.1 ≤ 1 ∧ A.signed p = e.eval A) := by
  rw [addStatic_declaration m e hname htype]
  cases hchain : e.chain? with
  | some p =>
    refine ⟨_, rfl, ?_, fun ⟨hsigns, hvalue⟩ => .inr ⟨chainText p, ?_, rfl⟩⟩
    · rintro (hsame | ⟨init, hread, hinit⟩)
      · simp at hsame
      · obtain rfl : chainText p = init := by simpa using hinit
        rw [read_chainText] at hread
        simpa using hread
    · rw [read_chainText, if_pos hsigns, hvalue]
  | none =>
    generalize (SourceType.mk (.text type)).isObject = isObject
    cases e.isWrapped with
    | true => exact ⟨_, rfl, fun _ => rfl, fun _ => .inl (by cases isObject <;> rfl)⟩
    | false => exact ⟨_, rfl, by simp⟩

def wholeNumbers : Arithmetic Int where
  literal text := text.toList.foldl (fun n c => 10 * n + (c.toNat - '0'.toNat)) 0
  character := id
  null := 0
  cast _ _ v := v
  unary op v := if op = "-" then -v else v
  binary op v w := if op = "+" then v + w else v
  conditional c v w := if c = 0 then w else v

def seven : Literal := { digits := "7", begins := by decide }

theorem negative_seven_kept :
    ∃ m', addStatic {} ((Constant.unary "-" (.paren (.literal seven))).declaration "limit" "int") = .ok m' ∧
      (m'.statics = [] ∨ ∃ init, wholeNumbers.read init = some (-7) ∧
        m'.statics = [⟨.text "limit", ⟨.text "int"⟩, some (.text init)⟩]) := by
  obtain ⟨m', hm', hiff⟩ := initializer_kept_iff wholeNumbers {} (.unary "-" (.paren (.literal seven)))
    (show "limit" ≠ "" by decide) (show "int" ≠ "" by decide)
  have heval : Constant.eval wholeNumbers (.unary "-" (.paren (.literal seven))) = -7 := by decide +kernel
  have hkept := hiff.mpr ⟨Nat.le_refl 1, rfl⟩
  rw [heval] at hkept
  exact ⟨m', hm', hkept⟩

theorem sum_initializer_lost :
    (addStatic {} ((Constant.binary "+" (.literal seven) (.literal seven)).declaration "limit" "int")).toOption.map
      (fun m => m.statics.map (·.init)) = some [none] := by
  decide +kernel

end ObjcLowering.Declarations
