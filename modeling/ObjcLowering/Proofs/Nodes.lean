import ObjcLowering.Ast.Descent

/-!
Computations that may fail, and the parts of a node: its children as they are checked, and the nodes
below it.
-/

namespace ObjcLowering

open List

section Faults

theorem bind_eq_ok {e : Except Fault α} : e >>= f = .ok b ↔ ∃ a, e = .ok a ∧ f a = .ok b := by
  cases e with
  | error fault => simp [bind, Except.bind]
  | ok a => simp [bind, Except.bind]

@[simp] theorem pure_eq_ok {a b : α} : (pure a : Except Fault α) = .ok b ↔ a = b := by
  simp [pure, Except.pure]

theorem toOption_map_eq_some {e : Except Fault α} : e.toOption.map f = some b ↔ ∃ a, e = .ok a ∧ f a = b := by
  cases e <;> simp [Except.toOption]

theorem mapM_eq_ok_cons {f : α → Except Fault β} : (x :: xs).mapM f = .ok ys ↔
      ∃ y, f x = .ok y ∧ ∃ zs, xs.mapM f = .ok zs ∧ y :: zs = ys := by
  simp only [mapM_cons, bind_eq_ok, pure_eq_ok]

theorem mapM_of_forall {f : α → Except Fault β} {as : List α}
    (h : ∀ a ∈ as, f a = .ok (g a)) : as.mapM f = .ok (as.map g) := by
  induction as with
  | nil => rfl
  | cons a as ih => exact mapM_eq_ok_cons.mpr ⟨g a, h a (.head _), _, ih fun a ha => h a (.tail _ ha), rfl⟩

theorem foldlM_cons_eq_ok {f : β → α → Except Fault β} :
    (x :: xs).foldlM f b = .ok r ↔ ∃ b', f b x = .ok b' ∧ xs.foldlM f b' = .ok r := by
  rw [foldlM_cons, bind_eq_ok]

theorem asKey_eq_ok {j key : Json} (h : j.asKey = .ok key) : key = j := by
  unfold Json.asKey at h
  split at h <;> cases h
  rfl

theorem textOr_eq_ok {f : Fault} {j : Json} (h : j.textOr f = .ok text) : j = .text text := by
  cases j with
  | text _ => cases h; rfl
  | _ => cases h

theorem eq_text_plain {name : Name} (h : name.isText = true) : name = .text name.plain := by
  cases name with
  | text u => rfl
  | _ => cases h

theorem mem_filterAuxM {f : α → Except Fault Bool} {xs acc ys : List α}
    (h : xs.filterAuxM f acc = .ok ys) : y ∈ ys ↔ y ∈ acc ∨ y ∈ xs ∧ f y = .ok true := by
  induction xs generalizing acc with
  | nil =>
    cases h
    simp
  | cons x xs ih =>
    obtain ⟨b, hb, hrest⟩ := bind_eq_ok.mp h
    rw [ih hrest]
    cases b with
    | true =>
      simp only [cond_true, mem_cons]
      constructor
      · rintro ((rfl | hacc) | ⟨hmem, hy⟩)
        · exact .inr ⟨.inl rfl, hb⟩
        · exact .inl hacc
        · exact .inr ⟨.inr hmem, hy⟩
      · rintro (hacc | ⟨rfl | hmem, hy⟩)
        · exact .inl (.inr hacc)
        · exact .inl (.inl rfl)
        · exact .inr ⟨hmem, hy⟩
    | false =>
      simp only [cond_false, mem_cons]
      constructor
      · exact Or.imp_right fun ⟨hmem, hy⟩ => ⟨.inr hmem, hy⟩
      · rintro (hacc | ⟨rfl | hmem, hy⟩)
        · exact .inl hacc
        · rw [hb] at hy
          cases hy
        · exact .inr ⟨hmem, hy⟩

theorem mem_filterM {f : α → Except Fault Bool} {xs ys : List α}
    (h : xs.filterM f = .ok ys) : y ∈ ys ↔ y ∈ xs ∧ f y = .ok true := by
  obtain ⟨zs, hzs, h⟩ := bind_eq_ok.mp h
  rw [← pure_eq_ok.mp h, mem_reverse, mem_filterAuxM hzs]
  simp

end Faults

namespace Ast.Node

@[simp] theorem kind_mk (a : Attrs) (ns : List Node) : (mk a ns).kind = a.kind := rfl

@[simp] theorem inner_mk (a : Attrs) (ns : List Node) : (mk a ns).inner = ns := rfl

theorem check_eq_ok {n m : Node} : n.check = .ok m ↔ n.attrs.isAlien = false ∧ m = n := by
  unfold check
  cases h : n.attrs.isAlien with
  | false => simp [eq_comm]
  | true => simp

theorem mapM_check_eq_ok {ns ms : List Node} (h : ns.mapM check = .ok ms) : ms = ns := by
  induction ns generalizing ms with
  | nil =>
    cases h
    rfl
  | cons n ns ih =>
    obtain ⟨m, hm, ms', hms, rfl⟩ := mapM_eq_ok_cons.mp h
    rw [ih hms, (check_eq_ok.mp hm).2]

theorem children_eq_ok {n : Node} (h : n.children = .ok ms) : ms = n.inner := by
  simp only [children, bind_eq_ok] at h
  obtain ⟨_, _, _, _, hms⟩ := h
  exact mapM_check_eq_ok hms

def bare (kind : String) (inner : List Node) : Node := mk { kind := kind } inner

def varRef (name type : String) : Node :=
  mk { kind := "DeclRefExpr"
       type := .present { qual := some (.text type) }
       referencedDecl := .present { name := some (.text name) } } []

def varDecl (name type : String) (init : List Node) : Node :=
  mk { kind := "VarDecl"
       name := some (.text name)
       type := .present { qual := some (.text type) } } init

def varStmt (name type : String) (init : List Node) : Node :=
  bare "DeclStmt" [varDecl name type init]

theorem mem_preorder_self (n : Node) : n ∈ n.preorder := by
  cases n
  simp [preorder]

theorem preorder_subset_of_mem {m : Node} (h : m ∈ ns) : m.preorder ⊆ preorderList ns := by
  induction ns with
  | nil => cases h
  | cons n ns ih =>
    rw [preorderList]
    cases h with
    | head => exact subset_append_left _ _
    | tail _ h => exact subset_append_of_subset_right _ (ih h)

theorem preorder_subset_of_inner {m n : Node} (h : m ∈ n.inner) : m.preorder ⊆ n.preorder := by
  cases n with
  | mk a ns =>
    rw [preorder]
    exact subset_cons_of_subset _ (preorder_subset_of_mem h)

mutual

theorem preorder_subset_of_preorder {m : Node} : (n : Node) → m ∈ n.preorder →
    m.preorder ⊆ n.preorder
  | mk a ns, h => by
    rw [preorder, mem_cons] at h
    cases h with
    | inl h => rw [h]; exact Subset.refl _
    | inr h =>
      rw [preorder]
      exact subset_cons_of_subset _ (preorder_subset_of_preorderList ns h)

theorem preorder_subset_of_preorderList {m : Node} : (ns : List Node) → m ∈ preorderList ns →
    m.preorder ⊆ preorderList ns
  | n :: ns, h => by
    rw [preorderList, mem_append] at h
    rw [preorderList]
    cases h with
    | inl h => exact subset_append_of_subset_left _ (preorder_subset_of_preorder n h)
    | inr h => exact subset_append_of_subset_right _ (preorder_subset_of_preorderList ns h)

end

theorem preorderList_subset {n : Node} : preorderList n.inner ⊆ n.preorder := by
  cases n with
  | mk a ns =>
    rw [preorder]
    exact subset_cons_self _ _

theorem mem_preorder_of_inner {m n : Node} (h : m ∈ n.inner) : m ∈ n.preorder :=
  preorder_subset_of_inner h (mem_preorder_self m)

theorem inner_subset_preorder {m n : Node} (h : m ∈ n.preorder) : m.inner ⊆ n.preorder :=
  fun _ hc => preorder_subset_of_preorder n h (mem_preorder_of_inner hc)

theorem firstOf_nil {a : Attrs} (h : firstOf a [] = .ok m) : m = blank := by
  obtain ⟨_, -, h⟩ := bind_eq_ok.mp h
  split at h
  · cases h
  · cases h
    rfl

mutual

theorem unwrap_mem_preorder (kinds : List String) : (n : Node) → n.unwrap kinds ∈ n.preorder
  | mk a ns => by
    rw [unwrap]
    split
    · exact unwrapFirst_mem_preorder kinds a ns
    · exact mem_preorder_self _

theorem unwrapFirst_mem_preorder (kinds : List String) (a : Attrs) : (ns : List Node) →
    unwrapFirst kinds (mk a ns) ns ∈ (mk a ns).preorder
  | [] => mem_preorder_self _
  | n :: ns => preorder_subset_of_inner (.head ns) (unwrap_mem_preorder kinds n)

end

theorem eq_of_firstChild {n m : Node} (h : n.firstChild = .ok m) : m = n.inner.head?.getD blank := by
  cases n with
  | mk a ns =>
    cases ns with
    | cons c ns => exact (check_eq_ok.mp h).2
    | nil => exact firstOf_nil h

mutual

theorem mem_preorder_of_descend {p : Attrs → Bool} : (n : Node) → n.descend p = .ok m →
    m ∈ n.preorder ∨ m = blank
  | mk a ns, h => by
    rw [descend] at h
    split at h
    · exact mem_preorder_of_descendFirst a ns h
    · rw [(check_eq_ok.mp h).2]
      exact .inl (mem_preorder_self _)

theorem mem_preorder_of_descendFirst {p : Attrs → Bool} (a : Attrs) : (ns : List Node) →
    descendFirst p a ns = .ok m → m ∈ (mk a ns).preorder ∨ m = blank
  | [], h => .inr (firstOf_nil h)
  | n :: ns, h => (mem_preorder_of_descend n h).imp_left fun hm =>
      preorder_subset_of_inner (.head ns) hm

end

end Ast.Node

end ObjcLowering
