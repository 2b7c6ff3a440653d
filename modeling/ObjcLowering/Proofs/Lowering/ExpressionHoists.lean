import ObjcLowering.Proofs.Lowering.ExpressionCases

/-!
Every way of writing an expression queues what its parts declare, in order, and nothing else.
-/

namespace ObjcLowering.Lowering

open Ast

def Queued (env : Env) (k : Nat) (n : Node) (ps : List Part) (s s' : State) : Prop :=
  ∃ ds, List.Forall₂ (DeclaredAt env n) (ps.flatMap (Part.hoists (hoists env k) n)) ds ∧
    s'.pending = s.pending ++ ds

namespace Queued

theorem nothing (h : s'.pending = s.pending) : Queued env k n [] s s' :=
  ⟨[], .nil, by rw [h, List.append_nil]⟩

theorem own (hd : DeclaredBy env n d) (h : s'.pending = s.pending ++ [d]) :
    Queued env k n [.own] s s' := ⟨[d], .cons ⟨n, rfl, hd⟩ .nil, h⟩

theorem trans (h : Queued env k n ps s t) (h' : Queued env k n qs t s') :
    Queued env k n (ps ++ qs) s s' := by
  obtain ⟨ds, hds, ht⟩ := h
  obtain ⟨es, hes, hs'⟩ := h'
  refine ⟨ds ++ es, ?_, by rw [hs', ht, List.append_assoc]⟩
  rw [List.flatMap_append]
  exact List.rel_append hds hes

end Queued

def QueuesParts (env : Env) (k : Nat) (n : Node) (expr : Node → Lower String) : Prop :=
  ∀ p c s text s', n.part? p = some c → Yields (expr c) env s text s' → Queued env k n [.expr p] s s'

theorem Spells.queued (hexpr : QueuesParts env k n expr) (h : Spells expr env n ps s texts s') :
    Queued env k n ps s s' := by
  induction h with
  | nil => exact .nothing rfl
  | cons hp htext _ ih => exact (hexpr _ _ _ _ _ hp htext).trans ih

theorem Noted.pending (h : Noted n s t) : t.pending = s.pending := by
  induction h with
  | nothing => rfl
  | warned _ _ ih => exact ih
  | failed _ _ ih => exact ih
  | consumed name _ _ _ ih =>
    rw [← ih]
    unfold State.consume
    split <;> rfl

theorem queuesParts_keptRef (h : QueuesParts env k n expr) : QueuesParts env k n (keptRef expr) := by
  intro p c s text s' hp hkept
  obtain ⟨ref, href, -⟩ := yields_bind_pure.mp (yields_read_bind.mp hkept)
  exact h p c s ref s' hp href

theorem Collection.declaredBy (h : Collection n kind f items refs count)
    (hitems : Yields (n.inner.mapM (keptRef (level k).expr)) env s items t) (number : Nat) :
    DeclaredBy env n (bufferDecl env.root (kind.nameOf number) refs) := by
  have hkept : List.Forall₂ (KeptAs env) n.inner items :=
    (forall₂_of_yields_mapM hitems).imp fun c ref href => ⟨k, href⟩
  cases h with
  | array hkind => exact .array number hkind hkept
  | dictionary hkind => exact .dictionary number hkind hkept

theorem queued_exprStep (h : QueuesParts env k n (level k).expr)
    (hrun : Yields (exprStep (level k) n) env s text s') : Queued env k n (exprParts env n) s s' := by
  cases expressed_of_yields hrun with
  | spelt hparts hnoted hspells _ =>
    rw [hparts]
    exact (Queued.nothing hnoted.pending).trans (hspells.queued h)
  | @table _ t u _ r _ value _ hkind _ htable hparts hr _ hnoted hvalue hargs =>
    rw [hparts]
    have hreceiver : n.part? [0] = some r := by rw [Node.part_one, inner_eq_of_receiver hr]
    have hown : DeclaredBy env n (receiverDecl env.root (TempKind.receiver.nameOf u.temps) value) := by
      rw [nameOf_receiver]
      exact .receiver u.temps hkind htable hr ⟨k, t, u, hvalue⟩
    refine (Queued.nothing hnoted.pending).trans ((h _ _ _ _ _ hreceiver hvalue).trans ?_)
    exact (Queued.own hown rfl).trans ((Spells.children childrenAt_tail hargs).queued h)
  | collection hparts hcollection hitems =>
    rw [hparts]
    have hqueued := (Spells.all hitems).queued (queuesParts_keptRef h)
    have hall : Queued env k n (allParts n) s _ := hqueued
    exact hall.trans (.own (hcollection.declaredBy hitems s.temps) rfl)
  | string hparts hinterned =>
    rw [hparts]
    cases hinterned with
    | known _ => exact .nothing rfl
    | new _ _ _ hnoted => exact .nothing hnoted.pending
  | block hparts hdefined =>
    rw [hparts]
    obtain ⟨-, hnoted, hbody⟩ := hdefined
    refine .nothing (Eq.trans ?_ hnoted.pending)
    rcases hbody with ⟨-, rfl⟩ | ⟨body, -, hbody⟩
    · rfl
    · simp only [asOwnFunction, yields_get_bind, yields_set_bind, yields_bind (a := lowerFunctionBody _ _ _),
        yields_modify_bind, yields_pure] at hbody
      obtain ⟨_, _, -, -, rfl⟩ := hbody
      rfl

theorem queuesParts_of_pending (h : ∀ c s text s', Yields (expr c) env s text s' → ∃ ds,
      List.Forall₂ (DeclaredAt env c) (hoists env k c) ds ∧ s'.pending = s.pending ++ ds) :
    QueuesParts env k n expr := by
  intro p c s text s' hc hr
  obtain ⟨ds, hds, hs'⟩ := h c s text s' hr
  refine ⟨ds, ?_, hs'⟩
  simp only [List.flatMap_singleton, Part.hoists, hc, Option.map_some, Option.getD_some,
    List.forall₂_map_left_iff, DeclaredAt, Node.part_append, Option.bind_some]
  exact hds

theorem pending_of_yields_expr (h : Yields ((level k).expr n) env s text s') :
    ∃ ds, List.Forall₂ (DeclaredAt env n) (hoists env k n) ds ∧ s'.pending = s.pending ++ ds := by
  induction k generalizing n s s' text with
  | zero => exact absurd h yields_throw
  | succ k ih =>
    have hparts : QueuesParts env k n (level k).expr :=
      queuesParts_of_pending fun c s text s' hr => ih hr
    exact queued_exprStep hparts h

theorem queuesParts_level : QueuesParts env k n (level k).expr :=
  queuesParts_of_pending fun _ _ _ _ h => pending_of_yields_expr h

end ObjcLowering.Lowering
