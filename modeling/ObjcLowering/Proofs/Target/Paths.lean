import ObjcLowering.Target.Code

/-! Control paths through generated code. -/

namespace ObjcLowering

inductive Event
  | declare (name : String)
  | retain (value : String)
  | release (value : String)
  | leave (name : String)
  deriving DecidableEq, Repr

def Event.subject : Event → String
  | declare v => v
  | retain v => v
  | release v => v
  | leave v => v

inductive Exit
  | next
  | breaks
  | continues
  | returns (value : Option String)
  deriving DecidableEq, Repr

/-- The paths through a piece of code: the events, the variables that are declared in the surrounding
scope, the last one first, and the way out. -/
abbrev Behavior := List Event → List String → Exit → Prop

namespace Behavior

inductive Jump (exit : Exit) : Behavior
  | intro : Jump exit [] [] exit

inductive Single (e : Event) (opened : List String) : Behavior
  | intro : Single e opened [e] opened .next

inductive Chain (p q : Behavior) : Behavior
  | both : p t o .next → q t' o' x → Chain p q (t ++ t') (o' ++ o) x
  | left : p t o x → x ≠ .next → Chain p q t o x

inductive Scoped (p : Behavior) : Behavior
  | intro {t o x} : p t o x → Scoped p (t ++ o.map .leave) [] x

/-- Rounds of a loop. Whether it may stop before the first one is given by `tested`. -/
inductive Loop (p : Behavior) : (tested : Bool) → Behavior
  | done : Loop p true [] [] .next
  | again : p t o x → x = .next ∨ x = .continues → Loop p true t' o' x' →
      Loop p tested (t ++ t') o' x'
  | broken : p t o .breaks → Loop p tested t [] .next
  | returned : p t o (.returns v) → Loop p tested t [] (.returns v)

inductive Switched (p : Behavior) : Behavior
  | broken : p t o .breaks → Switched p t o .next
  | left : p t o x → x ≠ .breaks → Switched p t o x

theorem chain_skip_left : Chain (Jump .next) p t o x ↔ p t o x := by
  constructor
  · rintro (⟨⟨⟩, hp⟩ | ⟨⟨⟩, hx⟩)
    · simpa using hp
    · exact absurd rfl hx
  · intro h
    simpa using Chain.both Jump.intro h

theorem chain_assoc : Chain (Chain p q) r t o x ↔ Chain p (Chain q r) t o x := by
  constructor
  · intro h
    cases h with
    | both hpq hr =>
      cases hpq with
      | both hp hq => simpa using Chain.both hp (Chain.both hq hr)
      | left hp hx => exact absurd rfl hx
    | left hpq hx =>
      cases hpq with
      | both hp hq => exact .both hp (.left hq hx)
      | left hp hx => exact .left hp hx
  · intro h
    cases h with
    | both hp hqr =>
      cases hqr with
      | both hq hr => simpa using Chain.both (Chain.both hp hq) hr
      | left hq hx => exact .left (.both hp hq) hx
    | left hp hx => exact .left (.left hp hx) hx

theorem Loop.exit (h : Loop p tested t o x) : x ≠ .breaks ∧ x ≠ .continues := by
  induction h with
  | done => simp
  | again _ _ _ ih => exact ih
  | broken => simp
  | returned => simp

end Behavior

namespace Code

open Behavior

def isLabel : Code → Bool
  | label _ _ => true
  | _ => false

mutual

def paths : Code → Behavior
  | line _ _ | temp _ _ | assign _ _ _ | label _ _ => Jump .next
  | declare _ name _ => Single (.declare name) [name]
  | retain _ _ value => Single (.retain value) []
  | release _ _ value => Single (.release value) []
  | returns _ value => Jump (.returns value)
  | breaks _ => Jump .breaks
  | continues _ => Jump .continues
  | block _ body => Scoped (pathsAll body)
  | branch _ _ _ yes noForm no => fun t o x =>
    Scoped (pathsAll yes) t o x ∨
      match noForm with
      | .absent => Jump .next t o x
      | .braced => Scoped (pathsAll no) t o x
      -- The other part is another conditional.
      | .chained => pathsAll no t o x
  | whileLoop _ _ body => Loop (Scoped (pathsAll body)) true
  | doLoop _ body _ => Loop (Scoped (pathsAll body)) false
  | forLoop _ _ _ body => Loop (Scoped (pathsAll body)) true
  | switchOn _ _ body => Scoped (Switched (pathsFromLabel body))

def pathsAll : List Code → Behavior
  | [] => Jump .next
  | c :: cs => Chain (paths c) (pathsAll cs)

def pathsFromLabel : List Code → Behavior
  | [] => Jump .next
  | c :: cs => fun t o x => c.isLabel ∧ pathsAll cs t o x ∨ pathsFromLabel cs t o x

end

theorem pathsAll_append : pathsAll (cs ++ ds) t o x ↔ Chain (pathsAll cs) (pathsAll ds) t o x := by
  induction cs generalizing t o x with
  | nil => simp only [List.nil_append, pathsAll, chain_skip_left]
  | cons c cs ih =>
    have h : pathsAll (cs ++ ds) = Chain (pathsAll cs) (pathsAll ds) := by
      funext t o x
      exact propext ih
    rw [List.cons_append, pathsAll, h, pathsAll, chain_assoc]

theorem pathsAll_singleton : pathsAll [c] t o x ↔ paths c t o x := by
  constructor
  · intro h
    rw [pathsAll] at h
    cases h with
    | both hc hnil =>
      rw [pathsAll] at hnil
      cases hnil
      simpa using hc
    | left hc _ => exact hc
  · intro h
    rw [pathsAll, pathsAll]
    by_cases hx : x = .next
    · subst hx
      simpa using Chain.both h Jump.intro
    · exact .left h hx

end Code

end ObjcLowering
