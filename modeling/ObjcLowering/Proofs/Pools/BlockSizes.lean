import Mathlib
import ObjcLowering.Pools.Layout
import ObjcLowering.Proofs.Nodes
import ObjcLowering.Proofs.Tables
import ObjcLowering.Proofs.Texts

/-! The computed size of an object against the size of the C struct that holds it. -/

namespace ObjcLowering.Pools

open List Text

def roundUp (n align : Int) : Int := (n + align - 1) / align * align

theorem clearBits_eq (n k : Nat) : clearBits n (2 ^ k - 1 : Nat) = (n / 2 ^ k * 2 ^ k : Nat) := by
  unfold clearBits
  generalize hw : max (n : Int).natAbs.log2 ((2 ^ k - 1 : Nat) : Int).natAbs.log2 + 2 = w
  have hn : 2 * n < 2 ^ w := by
    have hlog := Nat.lt_log2_self (n := n)
    have hle : 2 ^ (n.log2 + 2) ≤ 2 ^ w := Nat.pow_le_pow_right (by decide) (by simp at hw; omega)
    rw [Nat.pow_succ] at hle
    omega
  have hdiv := Nat.div_mul_le_self n (2 ^ k)
  have hbits : BitVec.ofInt w n &&& ~~~ BitVec.ofInt w (2 ^ k - 1 : Nat) =
      BitVec.ofNat w (n / 2 ^ k * 2 ^ k) := by
    rw [BitVec.ofInt_natCast, BitVec.ofInt_natCast]
    apply BitVec.eq_of_getLsbD_eq
    intro i hi
    simp only [BitVec.getLsbD_and, BitVec.getLsbD_not, BitVec.getLsbD_ofNat, hi, decide_true, Bool.true_and,
      Nat.testBit_two_pow_sub_one, Nat.testBit_mul_two_pow, Nat.testBit_div_two_pow]
    by_cases hik : i < k
    · simp [hik]
    · simp [hik, Nat.sub_add_cancel (Nat.le_of_not_lt hik), Nat.le_of_not_lt hik]
  dsimp only
  rw [hbits, BitVec.toInt_eq_toNat_of_lt, BitVec.toNat_ofNat, Nat.mod_eq_of_lt (by omega)]
  rw [BitVec.toNat_ofNat, Nat.mod_eq_of_lt (by omega)]
  omega

theorem alignUp_eq_roundUp (hpointer : pointer = 4 ∨ pointer = 8) (hn : 0 ≤ n) :
    alignUp n pointer = roundUp n pointer := by
  unfold alignUp roundUp
  obtain ⟨k, rfl⟩ := Int.eq_ofNat_of_zero_le hn
  rcases hpointer with rfl | rfl
  · have h := clearBits_eq (k + 3) 2
    push_cast at h ⊢
    rw [show (k : Int) + 4 - 1 = k + 3 by omega]
    exact h
  · have h := clearBits_eq (k + 7) 3
    push_cast at h ⊢
    rw [show (k : Int) + 8 - 1 = k + 7 by omega]
    exact h

/-- An instance variable: the type of its elements and, for an array, how many there are in each
dimension. -/
structure IvarShape where
  scalar : String
  bounds : List Nat := []
  isSpaced : Bool := true

namespace IvarShape

def spelling (v : IvarShape) : String :=
  if v.bounds.isEmpty then v.scalar
  else v.scalar ++ (if v.isSpaced then " " else "") ++
    String.join (v.bounds.map fun k => "[" ++ toString k ++ "]")

def alignment (v : IvarShape) (pointer : Int) : Int := typeSize v.scalar pointer

def size (v : IvarShape) (pointer : Int) : Int :=
  v.bounds.foldl (fun size k => k * size) (typeSize v.scalar pointer)

def counted (v : IvarShape) (pointer : Int) : Int :=
  if v.bounds.isEmpty then typeSize v.scalar pointer else pointer

end IvarShape

def totalBytes (bytes : IvarShape → Int) : List IvarShape → Int
  | [] => 0
  | v :: vs => bytes v + totalBytes bytes vs

def structEnd (pointer offset : Int) : List IvarShape → Int
  | [] => offset
  | v :: vs => structEnd pointer (roundUp offset (v.alignment pointer) + v.size pointer) vs

def structSize (pointer base : Int) (vs : List IvarShape) : Int :=
  roundUp (structEnd pointer base vs) pointer

def padding (pointer offset : Int) : List IvarShape → Int
  | [] => 0
  | v :: vs => roundUp offset (v.alignment pointer) - offset
      + padding pointer (roundUp offset (v.alignment pointer) + v.size pointer) vs

theorem structEnd_eq (pointer offset : Int) (vs : List IvarShape) :
    structEnd pointer offset vs =
      offset + totalBytes (·.size pointer) vs + padding pointer offset vs := by
  induction vs generalizing offset with
  | nil => simp [structEnd, padding, totalBytes]
  | cons v vs ih =>
    rw [structEnd, ih, padding, totalBytes]
    omega

theorem exists_bareType_concat
    (hqualifiers : ∀ q ∈ qualifiers, q.toList ≠ [] ∧ c ∉ q.toList) (hc : isBlank c = false)
    (h : type.toList = front ++ [c]) : ∃ front', (bareType type).toList = front' ++ [c] := by
  obtain ⟨front, h⟩ : ∃ front, (qualifiers.foldl (fun t q => replace q "" t) type).toList =
      front ++ [c] := by
    generalize qualifiers = qs at hqualifiers
    induction qs generalizing type front with
    | nil => exact ⟨front, h⟩
    | cons q qs ih =>
      obtain ⟨hq, hqs⟩ := forall_mem_cons.mp hqualifiers
      have hnext : (replace q "" type).toList = Chars.replaceFrom q.toList [] 0 front ++ [c] := by
        rw [Text.replace, Text.Chars.replace, if_neg (by simpa using hq.1), h, String.toList_ofList]
        exact Chars.replaceFrom_append_cons hq.1 hq.2 (Nat.zero_le _)
      exact ih hnext hqs
  refine ⟨Chars.trimLeft front, ?_⟩
  rw [bareType, trim, String.toList_ofList, Chars.trim, h, Chars.trimLeft_concat hc,
    Chars.trimRight_concat hc]

theorem inheritedPart_eq {sizeOf : Name → Except Fault Int} (h : up.isKey = true) :
    inheritedPart classes pointer sizeOf up =
      if up.holds then if classes.has up then sizeOf up else .ok (pointer + 4) else .ok 0 := by
  rw [inheritedPart, Json.asKey, if_pos h]
  rfl

section

variable {pointer : Int} (hpointer : pointer = 4 ∨ pointer = 8)

include hpointer

theorem structSize_le_roundUp_iff (base : Int)
    (vs : List IvarShape) :
    structSize pointer base vs ≤ roundUp n pointer ↔ structEnd pointer base vs ≤ roundUp n pointer := by
  unfold structSize roundUp
  rcases hpointer with rfl | rfl <;> omega

theorem typeSize_pos (type : String) :
    0 < typeSize type pointer := by
  have hsizes : ∀ e ∈ scalarSizes pointer, 0 < e.2 := by
    rcases hpointer with rfl | rfl <;> exact all_iff_forall_prop.mp (by decide)
  have hpos : 0 < pointer := by omega
  unfold typeSize
  dsimp only
  split
  · exact hpos
  · cases hfound : (scalarSizes pointer).lookup (bareType type) with
    | none => exact hpos
    | some size => exact hsizes _ (Table.mem_of_find? (t := ⟨scalarSizes pointer⟩) hfound)

theorem typeSize_array {v : IvarShape} (h : v.bounds ≠ []) :
    typeSize v.spelling pointer = pointer := by
  have hspelling : ∃ front, v.spelling.toList = front ++ [']'] := by
    obtain ⟨ks, k, hks⟩ := eq_nil_or_concat v.bounds |>.resolve_left h
    refine ⟨(v.scalar ++ (if v.isSpaced then " " else "") ++
      String.join (ks.map fun k => "[" ++ toString k ++ "]") ++ "[" ++ toString k).toList, ?_⟩
    simp [IvarShape.spelling, hks]
  obtain ⟨front, hfront⟩ := hspelling
  obtain ⟨front, hbare⟩ := exists_bareType_concat
    (all_iff_forall_prop.mp (by decide)) (by decide) hfront
  have hends : ends "]" (bareType v.spelling) = true := by
    rw [ends, hbare, isSuffixOf_iff_suffix]
    exact ⟨front, rfl⟩
  have hsizes : ∀ e ∈ scalarSizes pointer, ends "]" e.1 = false := by
    rcases hpointer with rfl | rfl <;> exact all_iff_forall_prop.mp (by decide)
  unfold typeSize
  dsimp only
  split
  · rfl
  · cases hfound : (scalarSizes pointer).lookup (bareType v.spelling) with
    | none => rfl
    | some size =>
      have hmem := Table.mem_of_find? (t := ⟨scalarSizes pointer⟩) hfound
      exact absurd (hsizes _ hmem) (by simp [hends])

def Acyclic (classes : Table Name ClassLayout) : Prop :=
  ∃ rank : Name → Nat, ∀ {name layout}, classes.find? name = some layout →
    classes.has layout.superName → rank layout.superName < rank name

structure Declares (classes : Table Name ClassLayout) (shapes : Name → List IvarShape) : Prop where
  ivars : ∀ {name layout}, classes.find? name = some layout →
    layout.ivarTypes = (shapes name).map fun v => .text v.spelling
  superclasses : ∀ {name layout}, classes.find? name = some layout → layout.superName.isKey = true

def countedBytes (pointer : Int) (vs : List IvarShape) : Int := totalBytes (·.counted pointer) vs

theorem countedBytes_nonneg (vs : List IvarShape) :
    0 ≤ countedBytes pointer vs := by
  unfold countedBytes
  induction vs with
  | nil => exact Int.le_refl 0
  | cons v vs ih =>
    have hv : 0 < v.counted pointer := by
      unfold IvarShape.counted
      split
      · exact typeSize_pos hpointer _
      · omega
    rw [totalBytes]
    omega

theorem mapM_typeSize (vs : List IvarShape) :
    ∃ own, (vs.map fun v => Json.text v.spelling).mapM (fun t => do
        return typeSize (← t.textOr .unfit) pointer) = .ok own ∧
      own.foldr (· + ·) 0 = countedBytes pointer vs := by
  unfold countedBytes
  induction vs with
  | nil => exact ⟨[], rfl, rfl⟩
  | cons v vs ih =>
    obtain ⟨own, hown, hsum⟩ := ih
    have hv : typeSize v.spelling pointer = v.counted pointer := by
      unfold IvarShape.counted
      split
      · next h => rw [IvarShape.spelling, if_pos h]
      · next h => exact typeSize_array hpointer (by simpa using h)
    refine ⟨typeSize v.spelling pointer :: own, mapM_eq_ok_cons.mpr ⟨_, rfl, own, hown, rfl⟩, ?_⟩
    rw [foldr_cons, hsum, hv, totalBytes]

theorem instanceSize_succ (h : Declares classes shapes)
    (hlayout : classes.find? name = some layout) (hbase : 0 ≤ base)
    (hpart : inheritedPart classes pointer (instanceSize classes pointer fuel) layout.superName =
      .ok base) :
    instanceSize classes pointer (fuel + 1) name =
      .ok (roundUp (base + countedBytes pointer (shapes name)) pointer) := by
  obtain ⟨own, hown, hsum⟩ := mapM_typeSize hpointer (shapes name)
  have hcounted := countedBytes_nonneg hpointer (shapes name)
  rw [instanceSize, hlayout]
  simp only [hpart, h.ivars hlayout, hown]
  rw [← hsum, ← alignUp_eq_roundUp hpointer (by omega)]
  rfl

theorem exists_instanceSize (h : Declares classes shapes)
    (fuel : Nat) (name : Name) : ∃ size, instanceSize classes pointer fuel name = .ok size ∧ 0 ≤ size := by
  induction fuel generalizing name with
  | zero => exact ⟨pointer + 4, rfl, by omega⟩
  | succ fuel ih =>
    cases hlayout : classes.find? name with
    | none => exact ⟨pointer + 4, by rw [instanceSize, hlayout], by omega⟩
    | some layout =>
      obtain ⟨base, hpart, hbase⟩ : ∃ base, inheritedPart classes pointer
          (instanceSize classes pointer fuel) layout.superName = .ok base ∧ 0 ≤ base := by
        rw [inheritedPart_eq (h.superclasses hlayout)]
        split
        · split
          · exact ih _
          · exact ⟨pointer + 4, rfl, by omega⟩
        · exact ⟨0, rfl, Int.le_refl 0⟩
      have hcounted := countedBytes_nonneg hpointer (shapes name)
      refine ⟨_, instanceSize_succ hpointer h hlayout hbase hpart, ?_⟩
      unfold roundUp
      rcases hpointer with rfl | rfl <;> omega

end

theorem instanceSize_fuel (h : Declares classes shapes) {rank : Name → Nat}
    (hrank : ∀ {name layout}, classes.find? name = some layout → classes.has layout.superName →
      rank layout.superName < rank name) (hj : (classes.names.toFinset.filter (rank · < rank name)).card < j)
    (hk : (classes.names.toFinset.filter (rank · < rank name)).card < k) :
    instanceSize classes pointer j name = instanceSize classes pointer k name := by
  induction j generalizing k name with
  | zero => exact absurd hj (Nat.not_lt_zero _)
  | succ j ih =>
    obtain ⟨k, rfl⟩ : ∃ k', k = k' + 1 := ⟨k - 1, by omega⟩
    rw [instanceSize, instanceSize]
    cases hlayout : classes.find? name with
    | none => rfl
    | some layout =>
      dsimp only
      rw [inheritedPart_eq (h.superclasses hlayout), inheritedPart_eq (h.superclasses hlayout)]
      by_cases hup : classes.has layout.superName = true
      · have hlt := hrank hlayout hup
        have hcard := Finset.card_lt_card
          (s := classes.names.toFinset.filter (rank · < rank layout.superName))
          (t := classes.names.toFinset.filter (rank · < rank name)) <| by
            refine Finset.ssubset_iff_subset_ne.mpr ⟨fun a ha => ?_, fun heq => ?_⟩
            · rw [Finset.mem_filter] at ha ⊢
              exact ⟨ha.1, ha.2.trans hlt⟩
            · have hmem : layout.superName ∈ classes.names.toFinset.filter (rank · < rank name) :=
                Finset.mem_filter.mpr ⟨mem_toFinset.mpr (Table.has_iff_mem_names.mp hup), hlt⟩
              rw [← heq, Finset.mem_filter] at hmem
              exact Nat.lt_irrefl _ hmem.2
        rw [@ih layout.superName k (by omega) (by omega)]
      · simp only [if_neg hup]

theorem lookup_of_mapM {f : Name → Except Fault Int} {names : List Name}
    (h : names.mapM (fun name => do return (name, ← f name)) = .ok es) (name : Name) :
    if name ∈ names then ∃ size, es.lookup name = some size ∧ f name = .ok size
    else es.lookup name = none := by
  induction names generalizing es with
  | nil =>
    cases h
    rfl
  | cons a names ih =>
    obtain ⟨e, he, rest, hrest, rfl⟩ := mapM_eq_ok_cons.mp h
    obtain ⟨size, hsize, he⟩ := bind_eq_ok.mp he
    cases he
    by_cases ha : name = a
    · rw [if_pos (ha ▸ .head _)]
      exact ⟨size, by simp [ha], ha ▸ hsize⟩
    · rw [lookup_cons, beq_false_of_ne ha]
      simpa [ha] using ih hrest

theorem find?_classSizes {sizes : Table Name Int} (h : classSizes classes pointer = .ok sizes) (name : Name) :
    if name ∈ classes.names then
      ∃ size, sizes.find? name = some size ∧
        instanceSize classes pointer (classes.entries.length + 1) name = .ok size
    else sizes.find? name = none := by
  obtain ⟨es, hes, h⟩ := bind_eq_ok.mp h
  obtain rfl := pure_eq_ok.mp h
  exact lookup_of_mapM hes name

theorem exists_classSizes (h : ∀ name ∈ classes.names, ∃ size,
      instanceSize classes pointer (classes.entries.length + 1) name = .ok size) :
    ∃ sizes, classSizes classes pointer = .ok sizes := by
  suffices hes : ∃ es, classes.names.mapM (fun name => do
      return (name, ← instanceSize classes pointer (classes.entries.length + 1) name)) = .ok es by
    obtain ⟨es, hes⟩ := hes
    exact ⟨⟨es⟩, by rw [classSizes, hes]; rfl⟩
  generalize classes.names = names at h
  induction names with
  | nil => exact ⟨[], rfl⟩
  | cons name names ih =>
    obtain ⟨⟨size, hsize⟩, hnames⟩ := forall_mem_cons.mp h
    obtain ⟨es, hes⟩ := ih hnames
    exact ⟨(name, size) :: es, mapM_eq_ok_cons.mpr ⟨_, by rw [hsize]; rfl, es, hes, rfl⟩⟩

def inheritedSize (sizes : Table Name Int) (pointer : Int) (up : Name) : Int :=
  if up.holds then (sizes.find? up).getD (pointer + 4) else 0

theorem inheritedPart_of_sizes (hpointer : pointer = 4 ∨ pointer = 8) (hacyclic : Acyclic classes)
    (h : Declares classes shapes) {sizes : Table Name Int} (hsizes : classSizes classes pointer = .ok sizes)
    (hlayout : classes.find? name = some layout) :
    0 ≤ inheritedSize sizes pointer layout.superName ∧
      inheritedPart classes pointer (instanceSize classes pointer classes.entries.length) layout.superName =
        .ok (inheritedSize sizes pointer layout.superName) := by
  obtain ⟨rank, hrank⟩ := hacyclic
  have hlookup := find?_classSizes hsizes layout.superName
  rw [inheritedPart_eq (h.superclasses hlayout), inheritedSize]
  by_cases hup : layout.superName ∈ classes.names
  · rw [if_pos hup] at hlookup
    obtain ⟨base, hfind, hbase⟩ := hlookup
    obtain ⟨_, hsize, hle⟩ := exists_instanceSize hpointer h (classes.entries.length + 1) layout.superName
    cases hbase.symm.trans hsize
    have hcard : (classes.names.toFinset.filter (rank · < rank layout.superName)).card <
        classes.entries.length := by
      have hlt := Finset.card_lt_card (Finset.filter_ssubset (s := classes.names.toFinset)
        (p := (rank · < rank layout.superName)) |>.mpr ⟨_, mem_toFinset.mpr hup, Nat.lt_irrefl _⟩)
      have hnames := classes.names.toFinset_card_le
      rw [Table.length_names] at hnames
      omega
    rw [instanceSize_fuel h hrank hcard (Nat.lt_succ_of_lt hcard), hbase, hfind,
      if_pos (Table.has_iff_mem_names.mpr hup)]
    split
    · exact ⟨hle, rfl⟩
    · exact ⟨Int.le_refl 0, rfl⟩
  · rw [if_neg hup] at hlookup
    rw [hlookup, if_neg (fun hhas => hup (Table.has_iff_mem_names.mp hhas)), Option.getD_none]
    split
    · exact ⟨by omega, rfl⟩
    · exact ⟨Int.le_refl 0, rfl⟩

def slack (pointer sum : Int) : Int := roundUp sum pointer - sum

/-- A block is large enough for the struct exactly if rounding makes up for the padding and for the bytes
of arrays that are not counted. -/
theorem block_suffices_iff (hpointer : pointer = 4 ∨ pointer = 8) (hacyclic : Acyclic classes)
    (h : Declares classes shapes) :
    ∃ sizes, classSizes classes pointer = .ok sizes ∧
      ∀ name layout, classes.find? name = some layout → ∃ size, sizes.find? name = some size ∧
        (structSize pointer (inheritedSize sizes pointer layout.superName) (shapes name) ≤ size ↔
          totalBytes (·.size pointer) (shapes name)
              + padding pointer (inheritedSize sizes pointer layout.superName) (shapes name) ≤
            countedBytes pointer (shapes name)
              + slack pointer (inheritedSize sizes pointer layout.superName
                  + countedBytes pointer (shapes name))) := by
  obtain ⟨sizes, hsizes⟩ := exists_classSizes fun name _ =>
    (exists_instanceSize hpointer h (classes.entries.length + 1) name).imp fun _ hsize => hsize.1
  refine ⟨sizes, hsizes, fun name layout hlayout => ?_⟩
  have hname : name ∈ classes.names := Table.has_iff_mem_names.mp (by rw [Table.has, hlayout]; rfl)
  obtain ⟨size, hfind, hsize⟩ := if_pos hname ▸ find?_classSizes hsizes name
  refine ⟨size, hfind, ?_⟩
  have hbase := inheritedPart_of_sizes hpointer hacyclic h hsizes hlayout
  rw [instanceSize_succ hpointer h hlayout hbase.1 hbase.2] at hsize
  cases hsize
  rw [structSize_le_roundUp_iff hpointer, structEnd_eq, slack]
  omega

def pairTable : Table Name ClassLayout := ⟨[("Pair", ⟨"Base", ["int", "char"]⟩)]⟩

def pairShapes : List IvarShape := [⟨"int", [], true⟩, ⟨"char", [], true⟩]

theorem eq_of_find?_pairTable (h : pairTable.find? name = some layout) :
    name = "Pair" ∧ layout = ⟨"Base", ["int", "char"]⟩ := by
  cases mem_singleton.mp (Table.mem_of_find? h)
  exact ⟨rfl, rfl⟩

theorem declares_pairTable : Declares pairTable fun _ => pairShapes where
  ivars h := by obtain ⟨-, rfl⟩ := eq_of_find?_pairTable h; rfl
  superclasses h := by obtain ⟨-, rfl⟩ := eq_of_find?_pairTable h; rfl

theorem pair_block_suffices :
    ∃ sizes, classSizes pairTable 8 = .ok sizes ∧ ∃ size, sizes.find? "Pair" = some size ∧
      structSize 8 (inheritedSize sizes 8 "Base") pairShapes ≤ size := by
  have hacyclic : Acyclic pairTable := ⟨fun _ => 0, fun h hup => by
    obtain ⟨-, rfl⟩ := eq_of_find?_pairTable h
    exact absurd hup (by decide)⟩
  obtain ⟨sizes, hsizes, h⟩ := block_suffices_iff (.inr rfl) hacyclic declares_pairTable
  obtain ⟨size, hsize, hiff⟩ := h "Pair" ⟨"Base", ["int", "char"]⟩ rfl
  have hrun : (classSizes pairTable 8).toOption.map (·.find? "Base") = some none := by decide +kernel
  rw [hsizes] at hrun
  have hnone : sizes.find? "Base" = none := Option.some.inj hrun
  have hbase : inheritedSize sizes 8 "Base" = 12 := by
    rw [inheritedSize, hnone]
    rfl
  refine ⟨sizes, hsizes, size, hsize, hiff.mpr ?_⟩
  rw [hbase]
  decide +kernel

theorem block_short_of_padding :
    (classSizes ⟨[("Trio", ⟨"", ["char", "int", "char"]⟩)]⟩ 4).toOption.bind (·.find? "Trio") = some 8 ∧
      structSize 4 0 [⟨"char", [], true⟩, ⟨"int", [], true⟩, ⟨"char", [], true⟩] = 12 := by
  decide +kernel

end ObjcLowering.Pools
