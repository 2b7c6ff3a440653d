import ObjcLowering.Proofs.Dispatch.StaticSends
import ObjcLowering.Proofs.Lowering.StatementHoists

/-! When a temporary is evaluated. -/

namespace ObjcLowering.Lowering

open Ast Code

variable {site : HoistSite}

namespace HoistSite

def EvaluatedOnce (n : Node) (site : HoistSite) : Prop :=
  ∃ m, n.part? site.statement = some m ∧ Ast.EvaluatedOnce m site.part

/-- No step from the statement to the expression leads to a part that may be evaluated another number
of times than once. -/
def IsSteady (n : Node) (site : HoistSite) : Prop :=
  ∃ m, n.part? site.statement = some m ∧ m.isSteady site.part

theorem evaluatedOnce_iff_isSteady (h : site.Declares env n d) : site.EvaluatedOnce n ↔ site.IsSteady n := by
  obtain ⟨e, he, -⟩ := h
  rw [HoistSite.position, Node.part_append] at he
  obtain ⟨m, hm, he⟩ := Option.bind_eq_some_iff.mp he
  have honce := Ast.evaluatedOnce_iff_isSteady he
  constructor
  · rintro ⟨m', hm', h⟩
    cases hm.symm.trans hm'
    exact ⟨m, hm, honce.mp h⟩
  · rintro ⟨m', hm', h⟩
    cases hm.symm.trans hm'
    exact ⟨m, hm, honce.mpr h⟩

end HoistSite

/-- The temporaries of a statement come from its sites, one for each and in order; and a site is
evaluated exactly once with its statement if and only if it is steady. -/
theorem hoisted_once_iff_steady (h : Yields ((level k).stmt depth n) env s code s') :
    ∃ sites decls, (sitesAt env k).stmt n sites ∧
      List.Forall₂ (HoistSite.Declares env n) sites decls ∧
      tempDeclsAll code ++ s'.pending = s.pending ++ decls ∧
      ∀ site ∈ sites, (site.EvaluatedOnce n ↔ site.IsSteady n) := by
  obtain ⟨sites, decls, hsites, hdecls, heq⟩ := (settled env k).stmt h
  have honce := (List.forall₂_and_left _ _).mp
    (hdecls.imp fun site d hd => ⟨HoistSite.evaluatedOnce_iff_isSteady hd, hd⟩)
  exact ⟨sites, decls, hsites, hdecls, heq, honce.1⟩

/-! A message that two classes answer, to a receiver that is the result of a call. -/

def inTwoRunners : Env where
  cls := { name := "Runner" }
  module := .ofMethods [("OZObject", none, []),
    ("Runner", some "OZObject", [bareMethod "run" false .table]),
    ("Walker", some "OZObject", [bareMethod "run" false .table])]
  root := "OZObject"

def callOf (name : String) : Node :=
  .mk { kind := "CallExpr", type := .present { qual := some "id" } } [.varRef name "id (void)"]

def passedSend : Node :=
  .bare "CallExpr" [.varRef "use" "void (int)", message "instance" "" "run" [callOf "f"]]

def guardedSend : Node :=
  .mk { kind := "BinaryOperator", opcode := some "&&" }
    [.varRef "c" "int", message "instance" "" "run" [callOf "f"]]

theorem exists_rendered {a : Lower (List Code)} {Q : List Code → State → Prop}
    (h : ((a.run env).run s).toOption.map (fun r => renderAll r.1) = some text)
    (hall : ∀ {code s'}, Yields a env s code s' → Q code s') :
    ∃ code s', Yields a env s code s' ∧ renderAll code = text ∧ Q code s' := by
  obtain ⟨⟨code, s'⟩, hrun, htext⟩ := toOption_map_eq_some.mp h
  exact ⟨code, s', hrun, htext, hall hrun⟩

theorem passed_receiver_once :
    ∃ code s', Yields (lowerStmt 0 passedSend) inTwoRunners {} code s' ∧
      renderAll code = "struct OZObject *_oz_recv0 = (struct OZObject *)f();\n"
        ++ "use(OZ_PROTOCOL_SEND_run(_oz_recv0));\n" ∧
      ∃ sites decls, (sitesAt inTwoRunners passedSend.depth).stmt passedSend sites ∧
        List.Forall₂ (HoistSite.Declares inTwoRunners passedSend) sites decls ∧
        tempDeclsAll code ++ s'.pending = [] ++ decls ∧
        ∀ site ∈ sites, (site.EvaluatedOnce passedSend ↔ site.IsSteady passedSend) :=
  exists_rendered (by decide +kernel) hoisted_once_iff_steady

theorem guarded_receiver_hoisted :
    (∃ code s', Yields (lowerStmt 0 guardedSend) inTwoRunners {} code s' ∧
      renderAll code = "struct OZObject *_oz_recv0 = (struct OZObject *)f();\n"
        ++ "c && OZ_PROTOCOL_SEND_run(_oz_recv0);\n") ∧
    hoists inTwoRunners guardedSend.depth guardedSend = [[1]] ∧ ¬ EvaluatedOnce guardedSend [1] := by
  refine ⟨?_, by decide +kernel, ?_⟩
  · obtain ⟨⟨code, s'⟩, hrun, htext⟩ : ∃ r, ((lowerStmt 0 guardedSend).run inTwoRunners).run {} = .ok r ∧
        renderAll r.1 = "struct OZObject *_oz_recv0 = (struct OZObject *)f();\n"
          ++ "c && OZ_PROTOCOL_SEND_run(_oz_recv0);\n" := toOption_map_eq_some.mp (by decide +kernel)
    exact ⟨code, s', hrun, htext⟩
  · rw [evaluatedOnce_iff_isSteady (m := message "instance" "" "run" [callOf "f"]) rfl]
    decide +kernel

end ObjcLowering.Lowering
