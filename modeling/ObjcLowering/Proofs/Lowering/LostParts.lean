import ObjcLowering.Proofs.Lowering.Structured

/-!
Different trees with the same text: a `for` loop declares its first variable only, and two prefix
operators run together.
-/

namespace ObjcLowering.Lowering

open Ast

theorem children_cons (ns rest : List Node) : (Node.mk a (.mk b ns :: rest)).children =
    (Node.mk a (.mk b [] :: rest)).children.map fun children => .mk b ns :: children.tail := by
  cases ha : a.isAlien <;> cases hb : b.isAlien <;> cases hinner : a.checkInner <;>
    cases hrest : rest.mapM Node.check <;>
    simp [Node.children, Node.check, Node.attrs, Node.inner, ha, hb, hinner, hrest, bind, Except.bind,
      Except.map, pure, Except.pure]

/-- `for (int i, j; j; ) ;` -/
def twoCounters : Node :=
  .bare "ForStmt" [.bare "DeclStmt" [.varDecl "i" "int" [], .varDecl "j" "int" []], .bare "<<<NULL>>>" [],
    .varRef "j" "int", .bare "NullStmt" [], .bare "NullStmt" []]

def signed (op : String) (e : Node) : Node :=
  .mk { kind := "UnaryOperator", opcode := some (.text op) } [e]

theorem expr_signed (k : Nat) (op : String) (e : Node) :
    (level (k + 1)).expr (signed op e) = (op ++ ·) <$> (level k).expr e := by
  funext env s
  have hstep : (level (k + 1)).expr (signed op e) env s = lowerKind (level k) (signed op e) env s := by
    rcases env with ⟨cls, module, root, method, hasItemPool, source, owning⟩
    cases source <;> rfl
  rw [hstep]
  rfl

end ObjcLowering.Lowering
