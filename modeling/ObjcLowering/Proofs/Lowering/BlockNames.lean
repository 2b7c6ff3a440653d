import Mathlib.Data.List.Basic
import ObjcLowering.Program.Emission
import ObjcLowering.Proofs.Lowering.ExpressionCases

/-!
The names of block functions: after the place of the block, or the number of functions that are defined
before its body.
-/

namespace ObjcLowering

namespace Lowering

open Ast

def numberedName (stem : String) (line col : Nat) : String :=
  stem ++ "_L" ++ toString line ++ "_C" ++ toString col

theorem numberedName_injective
    (h : numberedName stem line col = numberedName stem line' col') : line = line' ∧ col = col' := by
  have hdigits : ∀ k : Nat, '_' ∉ (toString k).toList := fun k hk =>
    absurd (isDigit_of_mem_toString hk) (by decide)
  have hmark : ∀ digits : List Char, "_C".toList ++ digits = '_' :: 'C' :: digits := fun _ => rfl
  have hchars := congrArg String.toList h
  simp only [numberedName, String.toList_append, List.append_assoc, List.append_cancel_left_eq, hmark]
    at hchars
  have hcol : '_' ∉ 'C' :: (toString col).toList := List.not_mem_cons_of_ne_of_not_mem (by decide) (hdigits col)
  obtain ⟨hline, -, hcol⟩ := (List.append_cons_inj_of_notMem (hdigits line) hcol).mp hchars
  exact ⟨toString_injective (String.toList_inj.mp hline),
    toString_injective (String.toList_inj.mp (List.cons.inj hcol).2)⟩

def placeOf (n : Node) : Option (Json × Json) := n.attrs.loc.get.toOption.bind position?

inductive Placed (n : Node) : Option (Nat × Nat) → Prop
  | nowhere : placeOf n = none → Placed n none
  | located {line col : Nat} : 0 < line → placeOf n = some (.int line, .int col) → Placed n (some (line, col))

def blockName (place : Option (Nat × Nat)) (number : Nat) : String :=
  match place with
  | some (line, col) => numberedName "_oz_block" line col
  | none => numberedName "_oz_block" 0 number

theorem blockName_eq_iff (hn : Placed n place) (hm : Placed m place') :
    blockName place number = blockName place' number' ↔
      place = place' ∧ (place = none → number = number') := by
  cases hn with
  | nowhere _ =>
    cases hm with
    | nowhere _ => exact ⟨fun h => ⟨rfl, fun _ => (numberedName_injective h).2⟩, fun h => by rw [h.2 rfl]⟩
    | located hline _ => exact ⟨fun h => absurd (numberedName_injective h).1 (by omega), fun h => nomatch h.1⟩
  | located hline _ =>
    cases hm with
    | nowhere _ => exact ⟨fun h => absurd (numberedName_injective h).1 (by omega), fun h => nomatch h.1⟩
    | located _ _ =>
      refine ⟨fun h => ?_, fun h => by cases h.1; rfl⟩
      obtain ⟨rfl, rfl⟩ := numberedName_injective h
      exact ⟨rfl, nofun⟩

theorem Defined.name_eq (hplace : Placed n place)
    (h : Defined below env n s name s') : name = blockName place s.blocks.length ∧
      ∃ before result params code, s'.blocks = before ++
        [Text.trimRightBy (· == '\n') (blockHead result name params ++ Code.render code)] := by
  obtain @⟨loc, _, _, _, _, _, _, hloc, -, -, -, rfl⟩ := h
  refine ⟨?_, _, _, _, _, rfl⟩
  have hposition : placeOf n = position? loc := by rw [placeOf, hloc]; rfl
  cases hplace with
  | nowhere hnone =>
    rw [← hposition, hnone]
    rfl
  | located _ hsome =>
    rw [← hposition, hsome]
    rfl

theorem defined_of_lowerBlock (hkind : n.kind = "BlockExpr") (h : Yields (lowerBlock below n) env s name s')
    (hnew : s'.blocks ≠ s.blocks) : Defined below env n s name s' := by
  obtain ⟨-, rfl⟩ | ⟨message, -, rfl⟩ | hdefined := lowerBlock_cases hkind h
  · exact absurd rfl hnew
  · exact absurd rfl hnew
  · exact hdefined

def blockAt (place : Slot Place) (stmts : List Node) : Node :=
  .mk { kind := "BlockExpr", loc := place } [.bare "BlockDecl" [.bare "CompoundStmt" stmts]]

end Lowering

namespace Program

open Ast Lowering

def blockVariable (name : Name) (value : Node) : Node :=
  .bare "DeclStmt"
    [.mk { kind := "VarDecl", name := some name, type := .present { qual := some (.text "void (^)(void)") } }
      [value]]

def ledPlan (stmts : List Node) : Plan :=
  { options := { outdir := "out" }
    module := { classes := ⟨[("Led", { name := "Led", methods := [
      { selector := "run", returnType := ⟨"void"⟩, body := some (.bare "CompoundStmt" stmts) }] })]⟩ } }

end Program

end ObjcLowering
