import ObjcLowering.Pools.CallGraph
import ObjcLowering.Proofs.Nodes

/-!
Syntax trees whose analysis succeeds: names and types are texts wherever they stand.
-/

namespace ObjcLowering.Pools

open Ast Node List

structure IsFit (n : Node) : Prop where
  isNode : n.attrs.isAlien = false
  hasList : n.attrs.innerFault.isNone = true
  name : n.name.isText = true
  type : n.qualType.toOption.any Json.isText = true
  classType : n.attrs.classType.get.toOption.any (fun type => (type.qual.getD "").isText) = true
  referenced : n.referencedName.toOption.any Json.isText = true

instance (n : Node) : Decidable (IsFit n) :=
  decidable_of_iff (n.attrs.isAlien = false ∧ n.attrs.innerFault.isNone = true ∧ n.name.isText = true ∧
    n.qualType.toOption.any Json.isText = true ∧
    n.attrs.classType.get.toOption.any (fun type => (type.qual.getD "").isText) = true ∧
    n.referencedName.toOption.any Json.isText = true)
    ⟨fun h => ⟨h.1, h.2.1, h.2.2.1, h.2.2.2.1, h.2.2.2.2.1, h.2.2.2.2.2⟩,
      fun h => ⟨h.isNode, h.hasList, h.name, h.type, h.classType, h.referenced⟩⟩

theorem exists_ok_of_any {e : Except Fault α} (h : e.toOption.any p = true) :
    ∃ a, e = .ok a ∧ p a = true := by
  cases e with
  | error fault => cases h
  | ok a => exact ⟨a, rfl, h⟩

theorem exists_text_of_any {e : Except Fault Json} (h : e.toOption.any Json.isText = true) :
    ∃ s, e = .ok (.text s) := by
  obtain ⟨j, hj, htext⟩ := exists_ok_of_any h
  exact ⟨j.plain, hj.trans (congrArg _ (eq_text_plain htext))⟩

theorem exists_bind_ok {next : α → Except Fault β}
    (h : e = .ok a) (hnext : ∃ b, next a = .ok b) : ∃ b, e >>= next = .ok b := by
  obtain ⟨b, hb⟩ := hnext
  exact ⟨b, bind_eq_ok.mpr ⟨a, h, hb⟩⟩

theorem IsFit.checkInner (h : IsFit n) : n.attrs.checkInner = .ok () := by
  rw [Attrs.checkInner, Option.isNone_iff_eq_none.mp h.hasList]

theorem mapM_check_of_isFit {ns : List Node} (h : ∀ n ∈ ns, IsFit n) : ns.mapM check = .ok ns := by
  induction ns with
  | nil => rfl
  | cons n ns ih =>
    have hcheck := check_eq_ok.mpr ⟨(h n (.head _)).isNode, rfl⟩
    exact mapM_eq_ok_cons.mpr ⟨n, hcheck, ns, ih fun m hm => h m (.tail _ hm), rfl⟩

theorem IsFit.children (h : IsFit n) (hinner : ∀ m ∈ n.inner, IsFit m) : n.children = .ok n.inner := by
  have hcheck := check_eq_ok.mpr ⟨h.isNode, rfl⟩
  simp only [Node.children, bind_eq_ok]
  exact ⟨n, hcheck, (), h.checkInner, mapM_check_of_isFit hinner⟩

theorem exists_allM {ns : List Node} {p : Node → Except Fault Bool} (h : ∀ n ∈ ns, ∃ b, p n = .ok b) :
    ∃ b, ns.allM p = .ok b := by
  induction ns with
  | nil => exact ⟨true, rfl⟩
  | cons n ns ih =>
    obtain ⟨b, hb⟩ := h n (.head _)
    rw [allM, hb]
    cases b with
    | true => exact ih fun m hm => h m (.tail _ hm)
    | false => exact ⟨false, rfl⟩

theorem exists_isThreadEntry (h : IsFit n) (hinner : ∀ m ∈ n.inner, IsFit m) :
    ∃ b, isThreadEntry n = .ok b := by
  rw [isThreadEntry]
  split
  · exact ⟨false, rfl⟩
  refine exists_bind_ok (h.children hinner) ?_
  dsimp only
  split
  · exact ⟨false, rfl⟩
  refine exists_allM fun p hp => ?_
  obtain ⟨s, hs⟩ := exists_text_of_any (hinner p (mem_filter.mp hp).1).type
  exact exists_bind_ok hs ⟨_, rfl⟩

theorem asKey_text (s : String) : Json.asKey (.text s) = .ok (.text s) := rfl

theorem Counts.exists_bump (counts : Counts) (function name : String) :
    ∃ counts', counts.bump (.text function) (.text name) = .ok counts' := by
  simp only [Counts.bump, asKey_text, bind_eq_ok, pure_eq_ok]
  exact ⟨_, _, rfl, _, rfl, rfl⟩

mutual

theorem exists_calleeName : (n : Node) → (∀ m ∈ n.preorder, IsFit m) →
    ∃ name, calleeName n = .ok name ∧ ∀ f ∈ name, ∃ s, f = .text s
  | .mk a ns, h => by
    have hself := h _ (mem_preorder_self _)
    have hlist : ∃ name, calleeNameList ns = .ok name ∧ ∀ f ∈ name, ∃ s, f = .text s :=
      exists_calleeNameList ns fun m hm => h m (by rw [preorder]; exact .tail _ hm)
    obtain ⟨name, hname, htext⟩ := hlist
    refine ⟨name, ?_, htext⟩
    have halien : a.isAlien = false := hself.isNode
    rw [calleeName, if_neg (by simp [halien])]
    exact bind_eq_ok.mpr ⟨(), hself.checkInner, hname⟩

theorem exists_calleeNameList : (ns : List Node) → (∀ m ∈ preorderList ns, IsFit m) →
    ∃ name, calleeNameList ns = .ok name ∧ ∀ f ∈ name, ∃ s, f = .text s
  | [], _ => ⟨none, rfl, fun _ hf => by cases hf⟩
  | n :: ns, h => by
    have hn : ∀ m ∈ n.preorder, IsFit m := fun m hm => h m (by
      rw [preorderList]
      exact mem_append_left _ hm)
    have hself := hn n (mem_preorder_self n)
    rw [calleeNameList, if_neg (by simp [hself.isNode])]
    split
    · obtain ⟨s, hs⟩ := exists_text_of_any hself.referenced
      refine ⟨some (.text s), by rw [hs]; rfl, fun f hf => ⟨s, ?_⟩⟩
      cases hf
      rfl
    split
    · exact exists_calleeName n hn
    · exact exists_calleeNameList ns fun m hm => h m (by
        rw [preorderList]
        exact mem_append_right _ hm)

end

theorem exists_addCall (found : Analysis) (function : String) (h : ∀ m ∈ n.preorder, IsFit m) :
    ∃ found', found.addCall (.text function) n = .ok found' := by
  obtain ⟨name, hname, htext⟩ := exists_calleeName n h
  refine exists_bind_ok hname ?_
  cases hstated : stated? name with
  | none => exact ⟨found, rfl⟩
  | some callee =>
    obtain ⟨s, rfl⟩ := htext callee (Option.filter_eq_some_iff.mp hstated).1
    obtain ⟨calls, hcalls⟩ := found.calls.exists_bump function s
    exact exists_bind_ok hcalls ⟨_, rfl⟩

theorem exists_addMessage (found : Analysis) (function : String) (h : IsFit n)
    (hinner : ∀ m ∈ n.inner, IsFit m) :
    ∃ found', found.addMessage (.text function) n = .ok found' := by
  rw [Analysis.addMessage]
  split
  · obtain ⟨type, htype, hqual⟩ := exists_ok_of_any h.classType
    obtain ⟨s, hs⟩ : ∃ s, type.qual.getD "" = .text s := ⟨_, eq_text_plain hqual⟩
    refine exists_bind_ok htype ?_
    dsimp only
    rw [hs]
    split
    · obtain ⟨allocs, hallocs⟩ := found.allocs.exists_bump function s
      exact exists_bind_ok hallocs ⟨_, rfl⟩
    · exact ⟨found, rfl⟩
  split
  · cases hcons : n.inner with
    | nil => exact ⟨found, rfl⟩
    | cons receiver rest =>
      have hreceiver := hinner receiver (by rw [hcons]; exact .head _)
      obtain ⟨type, htype⟩ := exists_text_of_any hreceiver.type
      refine exists_bind_ok (check_eq_ok.mpr ⟨hreceiver.isNode, rfl⟩) ?_
      refine exists_bind_ok htype (exists_bind_ok rfl ?_)
      cases classOfType type with
      | none => exact ⟨found, rfl⟩
      | some cls =>
        obtain ⟨calls, hcalls⟩ := found.calls.exists_bump function s!"{cls}.{n.selector}"
        exact exists_bind_ok hcalls ⟨_, rfl⟩
  · exact ⟨found, rfl⟩

theorem exists_addNode (found : Analysis) (function : String) (h : ∀ m ∈ n.preorder, IsFit m) :
    ∃ found', found.addNode (.text function) n = .ok found' := by
  have hself := h n (mem_preorder_self n)
  have hinner : ∀ m ∈ n.inner, IsFit m := fun m hm => h m (mem_preorder_of_inner hm)
  have hexpression : ∃ found', (if n.kind = "ObjCMessageExpr" && Json.holds (.text function) then
      found.addMessage (.text function) n
      else if n.kind = "CallExpr" && Json.holds (.text function) then found.addCall (.text function) n
      else pure found) = Except.ok found' := by
    split
    · exact exists_addMessage found function hself hinner
    split
    · exact exists_addCall found function h
    · exact ⟨found, rfl⟩
  rw [Analysis.addNode]
  split
  · obtain ⟨isEntry, hentry⟩ := exists_isThreadEntry hself hinner
    obtain ⟨s, hs⟩ : ∃ s, n.name = .text s := ⟨_, eq_text_plain hself.name⟩
    refine exists_bind_ok hentry ?_
    cases isEntry with
    | true => exact exists_bind_ok (by rw [hs, asKey_text]) ⟨_, rfl⟩
    | false => exact hexpression
  · exact hexpression

theorem exists_functionOf (function : String) (cls : Name) (h : IsFit n) :
    ∃ s, functionOf (.text function) cls n = .text s := by
  rw [functionOf]
  split
  · exact ⟨_, eq_text_plain h.name⟩
  split
  · exact ⟨_, rfl⟩
  · exact ⟨function, rfl⟩

mutual

theorem exists_analyzeNode (function : String) (cls : Name) (found : Analysis) : (n : Node) →
    (∀ m ∈ n.preorder, IsFit m) → ∃ found', analyzeNode (.text function) cls found n = .ok found'
  | .mk a ns, h => by
    have hself := h _ (mem_preorder_self _)
    have halien : a.isAlien = false := hself.isNode
    rw [analyzeNode, if_neg (by simp [halien])]
    dsimp only
    obtain ⟨s, hs⟩ := exists_functionOf function
      (if a.kind = "ObjCImplementationDecl" then (mk a ns).name else cls) hself
    rw [hs]
    obtain ⟨found₁, hnode⟩ := exists_addNode found s h
    refine exists_bind_ok hnode (exists_bind_ok hself.checkInner ?_)
    exact exists_analyzeNodes s _ found₁ ns fun m hm => h m (by
      rw [preorder]
      exact .tail _ hm)

theorem exists_analyzeNodes (function : String) (cls : Name) (found : Analysis) : (ns : List Node) →
    (∀ m ∈ preorderList ns, IsFit m) →
      ∃ found', analyzeNodes (.text function) cls found ns = .ok found'
  | [], _ => ⟨found, rfl⟩
  | n :: ns, h => by
    rw [analyzeNodes]
    obtain ⟨found₁, hnode⟩ := exists_analyzeNode function cls found n fun m hm => h m (by
      rw [preorderList]
      exact mem_append_left _ hm)
    refine exists_bind_ok hnode (exists_analyzeNodes function cls found₁ ns fun m hm => h m ?_)
    rw [preorderList]
    exact mem_append_right _ hm

end

theorem exists_analyze (h : ∀ n ∈ preorderList roots, IsFit n) :
    ∃ found, analyze roots = .ok found := exists_analyzeNodes "" "" {} roots h

end ObjcLowering.Pools
