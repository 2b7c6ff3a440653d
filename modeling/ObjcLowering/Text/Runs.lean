namespace ObjcLowering.Text

def inRanges (table : List (Nat × Nat)) (c : Char) : Bool :=
  table.any fun (low, high) => low ≤ c.toNat && c.toNat ≤ high

/-- Some run of `table` meets `n`. A run is given by how far after the run before it begins, how many numbers
it has, and how far they are apart. -/
def inRuns : (table : List (Nat × Nat × Nat)) → Nat → Bool
  | (gap, count, step) :: table, n =>
    gap ≤ n && ((n - gap) % step = 0 && (n - gap) / step < count
      || inRuns table (n - gap - step * (count - 1)))
  | _, _ => false

/-- `table` gives a set of numbers by the lengths of the stretches that lie outside and inside it, in turn. -/
def inStretches : (table : List Nat) → Nat → Bool
  | outside :: inside :: table, n =>
    outside ≤ n && (n < outside + inside || inStretches table (n - (outside + inside)))
  | _, _ => false

def upperRuns : List (Nat × Nat × Nat) :=
  [(65,26,1),(102,23,1),(2,7,1),(34,28,2),(3,8,2),(3,24,2),(1,3,2),(4,2,1),(2,2,2),(1,2,2),(1,2,1),(3,4,1),
  (2,2,1),(2,3,1),(4,2,1),(2,2,1),(2,3,2),(1,2,2),(3,2,2),(1,2,2),(1,2,1),(2,2,2),(1,1,1),(4,1,1),(8,1,1),
  (3,1,1),(3,1,1),(3,8,2),(3,9,2),(3,1,1),(3,2,2),(1,2,1),(2,29,2),(8,2,1),(2,2,1),(3,2,2),(1,3,1),(2,4,2),
  (290,2,2),(4,1,1),(9,1,1),(7,2,2),(1,2,1),(2,2,2),(1,2,2),(1,16,1),(2,9,1),(36,1,1),(3,3,1),(4,12,2),
  (6,1,1),(3,2,2),(1,1,1),(3,51,1),(49,17,2),(10,28,2),(1,7,2),(3,48,2),(3,38,1),(2890,38,1),(2,1,1),
  (6,1,1),(723,86,1),(2203,43,1),(3,3,1),(321,75,2),(10,49,2),(10,8,1),(9,6,1),(11,8,1),(9,8,1),(9,6,1),
  (12,4,2),(9,8,1),(73,4,1),(13,4,1),(13,4,1),(13,5,1),(12,4,1),(263,1,1),(5,1,1),(4,3,1),(3,3,1),(3,1,1),
  (4,5,1),(7,4,2),(1,3,1),(3,4,1),(11,2,1),(6,1,1),(27,16,1),(20,1,1),(819,26,1),(1841,48,1),(49,2,2),
  (1,2,1),(3,4,2),(1,3,1),(2,1,1),(3,1,1),(9,3,1),(2,49,2),(9,2,2),(5,1,1),(31054,23,2),(20,14,2),(136,7,2),
  (4,31,2),(11,3,2),(1,5,2),(5,2,2),(3,2,2),(4,11,2),(1,4,1),(2,5,1),(2,8,2),(1,3,1),(2,1,1),(7,1,1),
  (6,2,2),(29,1,1),(22316,26,1),(1222,40,1),(137,36,1),(157,11,1),(2,15,1),(2,7,1),(2,2,1),(1771,51,1),
  (3054,32,1),(21889,32,1),(26017,26,1),(27,26,1),(27,26,1),(27,2,2),(1,1,1),(3,1,1),(3,2,1),(3,4,1),
  (2,8,1),(27,26,1),(27,2,1),(2,4,1),(3,8,1),(2,7,1),(28,2,1),(2,4,1),(2,5,1),(2,1,1),(4,7,1),(28,26,1),
  (27,26,1),(27,26,1),(27,26,1),(27,26,1),(27,26,1),(31,25,1),(34,25,1),(34,25,1),(34,25,1),(34,25,1),
  (34,1,1),(4406,34,1),(2063,26,1),(7,26,1),(7,26,1)]

def wordStretches : List Nat :=
  [48,10,7,26,4,1,1,26,47,1,7,2,1,1,3,2,1,3,1,23,1,31,1,458,4,12,14,5,7,1,1,1,129,5,1,2,2,4,1,1,6,1,1,3,1,1,
  1,20,1,83,1,139,8,166,1,38,2,1,6,41,71,27,4,4,45,43,21,10,4,2,1,99,1,1,15,2,7,15,2,1,16,1,1,30,29,89,11,1,
  14,43,9,2,4,1,5,22,4,1,9,1,3,1,23,25,7,11,5,24,1,6,17,42,58,54,3,1,18,1,7,10,4,10,1,16,4,8,2,2,2,22,1,7,1,
  1,3,4,3,1,16,1,13,2,1,3,4,12,2,6,2,1,8,6,4,2,2,22,1,7,1,2,1,2,1,2,31,4,1,1,7,10,2,3,16,9,1,3,1,22,1,7,1,2,
  1,5,3,1,18,1,15,2,4,10,9,1,11,8,2,2,2,22,1,7,1,2,1,5,3,1,30,2,1,3,4,10,1,7,11,1,1,6,3,3,1,4,3,2,1,1,1,2,3,
  2,3,3,3,12,22,1,21,13,18,8,1,3,1,23,1,16,3,1,26,3,2,1,2,2,4,10,8,7,1,1,4,8,1,3,1,23,1,10,1,5,3,1,31,2,1,2,
  4,10,1,2,17,9,1,3,1,41,2,1,16,1,5,3,1,10,4,19,1,6,5,18,3,24,1,9,1,1,2,7,31,10,17,48,1,2,12,7,9,10,39,2,1,
  1,1,5,1,24,1,1,1,10,1,2,9,1,2,5,1,1,9,10,2,4,32,1,31,20,12,8,1,36,27,5,115,43,20,11,6,6,4,4,3,1,3,2,7,3,4,
  13,12,1,1,10,6,38,1,1,5,1,2,43,1,333,1,4,2,7,1,1,1,4,2,41,1,4,2,33,1,4,2,7,1,1,1,4,2,15,1,57,1,4,2,67,14,
  20,3,16,16,86,2,6,3,620,2,17,1,26,5,75,3,11,7,18,13,19,14,18,14,13,1,3,15,52,35,1,4,1,3,10,6,10,22,10,6,
  89,7,5,2,34,1,1,5,70,10,31,39,40,2,5,11,44,4,26,6,11,37,23,9,53,43,10,6,10,13,1,93,47,17,8,3,10,41,30,13,
  56,26,36,28,10,3,49,2,9,7,43,2,3,41,4,1,6,1,2,3,1,5,192,64,278,2,6,2,38,2,6,2,8,1,1,1,1,1,1,1,31,2,53,1,7,
  1,1,3,3,1,7,3,4,2,6,4,13,5,3,1,7,115,2,2,6,5,11,6,13,101,1,4,1,2,10,1,1,3,5,6,1,1,1,1,1,1,4,1,11,2,4,5,5,
  4,1,1,58,726,60,78,22,630,30,1132,229,6,4,3,2,9,1,2,38,1,1,5,1,2,56,7,1,16,23,9,7,1,7,1,7,1,7,1,7,1,7,1,7,
  1,7,80,1,469,3,25,9,7,5,2,5,4,86,6,3,1,90,1,4,5,43,1,94,3,4,10,32,48,16,32,10,30,8,1,15,32,10,39,15,320,
  6592,64,22157,67,46,2,269,3,28,20,47,16,31,2,80,39,9,2,103,2,64,5,2,1,1,1,5,24,16,1,3,1,4,1,23,13,6,10,52,
  14,50,28,10,24,6,3,1,1,2,1,38,10,23,25,29,7,47,28,11,6,5,1,25,1,41,23,3,1,8,4,10,6,23,3,1,3,50,1,1,3,2,2,
  5,2,1,1,1,24,3,2,11,7,3,12,6,2,6,2,6,9,7,1,7,1,43,1,14,6,115,13,10,6,11172,12,23,4,49,8452,366,2,106,38,7,
  12,5,5,1,1,10,1,13,1,5,1,1,1,2,1,2,1,108,33,363,18,64,2,54,40,12,116,5,1,135,19,10,7,26,6,26,11,89,3,6,2,
  6,2,6,2,3,35,12,1,26,1,19,1,2,1,15,2,14,34,123,12,45,12,57,17,2,244,29,3,49,16,27,4,36,9,30,5,38,10,30,2,
  36,4,8,1,5,42,158,2,10,6,36,4,36,4,40,8,52,12,11,1,15,1,7,1,2,1,11,1,15,1,7,1,2,67,311,9,22,10,8,24,6,1,
  42,1,9,69,6,2,1,1,44,1,2,3,1,2,23,2,31,2,38,8,9,48,19,1,2,5,33,4,26,70,56,4,20,2,47,15,4,1,3,1,29,10,9,23,
  31,1,32,32,8,1,28,6,5,16,54,10,22,2,27,5,26,23,7,80,73,55,51,13,51,7,42,12,10,294,31,1,42,6,2,78,40,8,22,
  11,4,27,18,46,28,20,23,12,53,26,30,1,2,2,1,13,45,32,25,7,10,9,36,15,10,4,1,2,1,8,35,3,1,12,48,14,4,11,11,
  1,1,4,20,11,18,1,25,84,7,1,1,1,4,1,15,1,10,7,47,17,10,11,8,2,2,2,22,1,7,1,2,1,5,3,1,18,1,12,5,158,53,18,4,
  5,10,5,3,30,48,20,2,1,1,8,10,166,47,41,4,36,48,20,1,11,10,38,43,13,1,7,10,54,27,21,12,4,7,185,44,116,83,
  12,8,2,1,2,8,1,2,1,24,15,1,1,1,14,10,70,8,2,39,16,1,1,1,28,1,10,40,7,1,21,1,11,46,19,1,18,73,263,9,1,37,
  17,1,15,29,5,30,112,7,1,2,1,38,21,1,9,10,6,6,1,2,1,32,14,1,7,10,310,19,189,1,15,21,43,922,102,111,17,196,
  2636,97,15,1071,4049,583,8633,569,7,31,1,10,6,79,1,10,6,30,18,48,16,4,12,10,1,7,1,21,5,19,688,87,105,75,5,
  1,66,13,64,2,1,1,28,6136,8,1238,42,9,8935,4,1,7,1,2,1,291,45,3,17,4,8,396,2308,107,5,13,3,9,7,10,5702,20,
  108,25,135,85,1,71,1,2,2,1,2,2,2,4,1,12,1,1,1,7,1,65,1,4,2,8,1,7,1,28,1,4,1,5,1,1,3,7,1,340,2,25,1,25,1,
  31,1,25,1,31,1,25,1,31,1,25,1,31,1,25,1,8,2,50,1792,31,481,45,10,7,2,10,4,1,321,30,18,44,4,10,1254,7,1,4,
  1,2,1,15,1,197,2,9,48,68,7,1,4,10,791,59,1,3,1,4,76,45,1,15,194,4,1,27,1,2,1,1,2,1,1,10,1,4,1,1,1,1,6,1,4,
  1,1,1,1,1,1,3,1,2,1,1,2,1,1,1,1,1,1,1,1,1,1,2,1,1,2,4,1,7,1,4,1,4,1,1,1,10,1,17,5,3,1,5,1,17,580,13,2787,
  10,1030,42720,32,4153,7,222,2,5762,14,7473,3103,542,1506,4939]

/-- The digit zero of each script; its nine successors are the other digits. -/
def digitZeros : List Nat :=
  [0x30, 0x660, 0x6F0, 0x7C0, 0x966, 0x9E6, 0xA66, 0xAE6, 0xB66, 0xBE6,
   0xC66, 0xCE6, 0xD66, 0xDE6, 0xE50, 0xED0, 0xF20, 0x1040, 0x1090, 0x17E0,
   0x1810, 0x1946, 0x19D0, 0x1A80, 0x1A90, 0x1B50, 0x1BB0, 0x1C40, 0x1C50, 0xA620,
   0xA8D0, 0xA900, 0xA9D0, 0xA9F0, 0xAA50, 0xABF0, 0xFF10, 0x104A0, 0x10D30, 0x11066,
   0x110F0, 0x11136, 0x111D0, 0x112F0, 0x11450, 0x114D0, 0x11650, 0x116C0, 0x11730, 0x118E0,
   0x11950, 0x11C50, 0x11D50, 0x11DA0, 0x16A60, 0x16AC0, 0x16B50, 0x1D7CE, 0x1D7D8, 0x1D7E2,
   0x1D7EC, 0x1D7F6, 0x1E140, 0x1E2F0, 0x1E950, 0x1FBF0]

def isUpper (c : Char) : Bool := inRuns upperRuns c.toNat

def isWord (c : Char) : Bool := inStretches wordStretches c.toNat

def digitValue? (c : Char) : Option Nat :=
  (digitZeros.find? fun base => base ≤ c.toNat && c.toNat ≤ base + 9).map fun base => c.toNat - base

end ObjcLowering.Text
