import ObjcLowering.Binary64
import ObjcLowering.Table
import ObjcLowering.Text.Basic

namespace ObjcLowering.DispatchTables

structure Counts where
  classes : Int
  categories : Int
  protocols : Int
  methods : Int
  selectors : Nat
  deriving Inhabited, Repr

def bitLength (n : Nat) : Nat := if n = 0 then 0 else n.log2 + 1

def nextPowerOfTwo (n : Int) : Nat := if n ≤ 0 then 1 else Nat.pow 2 (bitLength (n - 1).toNat)

def targetLoad : Binary64 := .ofDecimal false 6 (-1)

/-- Slots for `n` entries at the target load. The quotient is taken in binary64. -/
def slotsFor (n : Nat) : Nat := ((Binary64.ofNat n).quotient targetLoad).ceil

structure TableSize where
  value : Int
  formula : String
  deriving Inhabited, Repr

def selBits (selectors : Nat) : Nat := max 1 (bitLength (selectors - 1))

def classTableSize (classes : Int) : Int := if classes > 0 then 2 * classes + 4 else 8

def sizes (c : Counts) (pools : Int) : List (String × TableSize) :=
  let classSlots := classTableSize c.classes
  let bits := selBits c.selectors
  let selSlots := Nat.pow 2 bits
  [("CLASS_TABLE_SIZE",
      ⟨classSlots, if c.classes > 0 then s!"2*{c.classes} + 4" else "default(8)"⟩),
   ("CATEGORY_TABLE_SIZE", ⟨max (c.categories + 2) 4, s!"max({c.categories} + 2, 4)"⟩),
   ("PROTOCOL_TABLE_SIZE", ⟨max (c.protocols + 2) 4, s!"max({c.protocols} + 2, 4)"⟩),
   ("HASH_TABLE_SIZE",
      ⟨if c.methods > 0 then max (slotsFor c.methods.toNat) 64 else 64,
       if c.methods > 0 then s!"max(ceil({c.methods}/0.6), 64)" else "default(64)"⟩),
   ("STATIC_POOL_TABLE_SIZE", ⟨max (pools + 2) 4, s!"max({pools} + 2, 4)"⟩),
   ("NUM_SELECTORS", ⟨c.selectors, s!"{c.selectors} unique selectors"⟩),
   ("SEL_BITS", ⟨bits, if c.selectors > 1 then s!"ceil(log2({c.selectors}))" else "1"⟩),
   ("SEL_COUNT", ⟨(selSlots : Nat), s!"1 << {bits}"⟩),
   ("FLAT_DISPATCH_TABLE_SIZE", ⟨classSlots * (selSlots : Nat), s!"{classSlots} * {selSlots}"⟩)]

def sorted (table : List (String × TableSize)) : List (String × TableSize) :=
  sortByName (·.1) table

def definition (name : String) (size : TableSize) : String :=
  let label := "CONFIG_OBJZ_" ++ name
  s!"#if !defined({label}) || {label} == 0\n#undef {label}\n#define {label} {size.value}\n#endif\n\n"

def headerText (table : List (String × TableSize)) : String :=
  "/* Auto-generated by objz_gen_table_sizes.py — do not edit */\n"
    ++ "#ifndef OBJZ_TABLE_SIZES_H\n#define OBJZ_TABLE_SIZES_H\n\n"
    ++ String.join ((sorted table).map fun (name, size) => definition name size)
    ++ "#endif /* OBJZ_TABLE_SIZES_H */\n"

def initText (selectors : List String) : String :=
  "/* Auto-generated by objz_gen_table_sizes.py — do not edit */\n#include <objc/dispatch.h>\n\n"
    ++ "const struct objz_sel_init_entry __objz_sel_init_table[] = \x7b\n"
    ++ String.join (selectors.zipIdx.map fun (sel, i) => s!"\t\x7b\"{sel}\", {i}\x7d,\n")
    ++ "\x7d;\n\n" ++ s!"const uint16_t __objz_sel_init_count = {selectors.length};\n"

def selectorListText (selectors : List String) : String :=
  let width := (toString (selectors.length - 1)).length
  s!"objz_gen_table_sizes: flat dispatch ({selectors.length} selectors)\n"
    ++ String.join (selectors.zipIdx.map fun (sel, i) =>
      "  " ++ Text.padLeft width (toString i) ++ "  " ++ sel ++ "\n")

def tableText (c : Counts) (maxMethods : Nat) (table : List (String × TableSize)) : String :=
  let nameWidth := (table.map fun (name, _) => name.length).foldl max 0
  let valueWidth := (table.map fun (_, size) => (toString size.value).length).foldl max 0
  s!"objz_gen_table_sizes: {c.classes} classes, {c.categories} categories, "
    ++ s!"{c.protocols} protocols, {c.methods} methods (max {maxMethods}/class), "
    ++ s!"{c.selectors} unique selectors\n"
    ++ "  " ++ Text.padRight nameWidth "TABLE" ++ "  " ++ Text.padLeft valueWidth "SIZE" ++ "  FORMULA\n"
    ++ "  " ++ Text.copies (nameWidth + valueWidth + 10) "-" ++ "\n"
    ++ String.join ((sorted table).map fun (name, size) =>
      "  " ++ Text.padRight nameWidth name ++ "  " ++ Text.padLeft valueWidth (toString size.value)
        ++ "  " ++ size.formula ++ "\n")

end ObjcLowering.DispatchTables
