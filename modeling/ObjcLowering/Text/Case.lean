namespace ObjcLowering.Text

/-- Runs of letters whose capital lies `distance` further on: how far after the run before a run begins,
how many letters it has, and how far they are apart, come before that. -/
def capitalRuns : List (Nat × Nat × Nat × Int) :=
  [(97,26,1,-32),(59,1,1,743),(43,23,1,-32),(2,7,1,-32),(1,1,1,121),(2,24,2,-1),(2,1,1,-232),(2,3,2,-1),
  (3,8,2,-1),(3,23,2,-1),(3,3,2,-1),(1,1,1,-300),(1,1,1,195),(3,2,2,-1),(3,1,1,-1),(4,1,1,-1),(6,1,1,-1),
  (3,1,1,97),(4,1,1,-1),(1,1,1,163),(4,1,1,130),(3,3,2,-1),(3,1,1,-1),(5,1,1,-1),(3,1,1,-1),(4,2,2,-1),
  (3,1,1,-1),(4,1,1,-1),(2,1,1,56),(6,1,1,-1),(1,1,1,-2),(2,1,1,-1),(1,1,1,-2),(2,1,1,-1),(1,1,1,-2),
  (2,8,2,-1),(1,1,1,-79),(2,9,2,-1),(3,1,1,-1),(1,1,1,-2),(2,1,1,-1),(4,20,2,-1),(4,9,2,-1),(9,1,1,-1),
  (3,2,1,10815),(2,1,1,-1),(5,5,2,-1),(1,1,1,10783),(1,1,1,10780),(1,1,1,10782),(1,1,1,-210),(1,1,1,-206),
  (2,2,1,-205),(2,1,1,-202),(2,1,1,-203),(1,1,1,42319),(4,1,1,-205),(1,1,1,42315),(2,1,1,-207),
  (2,1,1,42280),(1,1,1,42308),(2,1,1,-209),(1,1,1,-211),(1,1,1,42308),(1,1,1,10743),(1,1,1,42305),
  (3,1,1,-211),(2,1,1,10749),(1,1,1,-213),(3,1,1,-214),(8,1,1,10727),(3,1,1,-218),(2,1,1,42307),
  (1,1,1,-218),(4,1,1,42282),(1,1,1,-218),(1,1,1,-69),(1,2,1,-217),(1,1,1,-71),(6,1,1,-219),(11,1,1,42261),
  (1,1,1,42258),(167,1,1,84),(44,2,2,-1),(4,1,1,-1),(4,3,1,130),(47,1,1,-38),(1,3,1,-37),(2,17,1,-32),
  (1,1,1,-31),(1,9,1,-32),(1,1,1,-64),(1,2,1,-63),(2,1,1,-62),(1,1,1,-57),(4,1,1,-47),(1,1,1,-54),
  (1,1,1,-8),(2,12,2,-1),(1,1,1,-86),(1,1,1,-80),(1,1,1,7),(1,1,1,-116),(2,1,1,-96),(3,1,1,-1),(3,1,1,-1),
  (53,32,1,-32),(1,16,1,-80),(2,17,2,-1),(10,27,2,-1),(3,7,2,-1),(1,1,1,-15),(2,48,2,-1),(50,38,1,-48),
  (2890,43,1,3008),(3,3,1,3008),(761,6,1,-8),(2179,1,1,-6254),(1,1,1,-6253),(1,1,1,-6244),(1,2,1,-6242),
  (1,1,1,-6243),(1,1,1,-6236),(1,1,1,-6181),(1,1,1,35266),(241,1,1,35332),(4,1,1,3814),(17,1,1,35384),
  (115,75,2,-1),(6,1,1,-59),(6,48,2,-1),(1,8,1,8),(9,6,1,8),(11,8,1,8),(9,8,1,8),(9,6,1,8),(12,4,2,8),
  (9,8,1,8),(9,2,1,74),(1,4,1,86),(1,2,1,100),(1,2,1,128),(1,2,1,112),(1,2,1,126),(51,2,1,8),(13,1,1,-7205),
  (18,2,1,8),(15,2,1,8),(4,1,1,7),(361,1,1,-28),(34,16,1,-16),(5,1,1,-1),(844,26,1,-26),(1863,48,1,-48),
  (2,1,1,-1),(4,1,1,-10795),(1,1,1,-10792),(2,3,2,-1),(7,1,1,-1),(3,1,1,-1),(11,50,2,-1),(9,2,2,-1),
  (5,1,1,-1),(13,38,1,-7264),(2,1,1,-7264),(6,1,1,-7264),(30996,23,2,-1),(20,14,2,-1),(136,7,2,-1),
  (4,31,2,-1),(11,2,2,-1),(3,5,2,-1),(5,1,1,-1),(5,2,2,-1),(1,1,1,48),(3,10,2,-1),(12,8,2,-1),(5,2,2,-1),
  (7,1,1,-1),(6,2,2,-1),(29,1,1,-1),(861,1,1,-928),(29,80,1,-38864),(21378,26,1,-32),(1230,40,1,-40),
  (137,36,1,-40),(156,11,1,-39),(2,15,1,-39),(2,7,1,-39),(2,2,1,-39),(1796,51,1,-64),(3022,32,1,-32),
  (21889,32,1,-32),(31395,34,1,-34)]

def capitalDistance : List (Nat × Nat × Nat × Int) → Nat → Int
  | [], _ => 0
  | (gap, count, step, distance) :: runs, n =>
    if n < gap then 0
    else if (n - gap) % step = 0 && (n - gap) / step < count then distance
    else capitalDistance runs (n - gap - step * (count - 1))

def capitalSpellings : List (Nat × List Nat) :=
  [(0xDF, [0x53, 0x53]), (0x149, [0x2BC, 0x4E]), (0x1F0, [0x4A, 0x30C]), (0x390, [0x399, 0x308, 0x301]),
   (0x3B0, [0x3A5, 0x308, 0x301]), (0x587, [0x535, 0x552]), (0x1E96, [0x48, 0x331]),
   (0x1E97, [0x54, 0x308]), (0x1E98, [0x57, 0x30A]), (0x1E99, [0x59, 0x30A]), (0x1E9A, [0x41, 0x2BE]),
   (0x1F50, [0x3A5, 0x313]), (0x1F52, [0x3A5, 0x313, 0x300]), (0x1F54, [0x3A5, 0x313, 0x301]),
   (0x1F56, [0x3A5, 0x313, 0x342]), (0x1FB2, [0x1FBA, 0x399]), (0x1FB3, [0x391, 0x399]),
   (0x1FB4, [0x386, 0x399]), (0x1FB6, [0x391, 0x342]), (0x1FB7, [0x391, 0x342, 0x399]),
   (0x1FBC, [0x391, 0x399]), (0x1FC2, [0x1FCA, 0x399]), (0x1FC3, [0x397, 0x399]),
   (0x1FC4, [0x389, 0x399]), (0x1FC6, [0x397, 0x342]), (0x1FC7, [0x397, 0x342, 0x399]),
   (0x1FCC, [0x397, 0x399]), (0x1FD2, [0x399, 0x308, 0x300]), (0x1FD3, [0x399, 0x308, 0x301]),
   (0x1FD6, [0x399, 0x342]), (0x1FD7, [0x399, 0x308, 0x342]), (0x1FE2, [0x3A5, 0x308, 0x300]),
   (0x1FE3, [0x3A5, 0x308, 0x301]), (0x1FE4, [0x3A1, 0x313]), (0x1FE6, [0x3A5, 0x342]),
   (0x1FE7, [0x3A5, 0x308, 0x342]), (0x1FF2, [0x1FFA, 0x399]), (0x1FF3, [0x3A9, 0x399]),
   (0x1FF4, [0x38F, 0x399]), (0x1FF6, [0x3A9, 0x342]), (0x1FF7, [0x3A9, 0x342, 0x399]),
   (0x1FFC, [0x3A9, 0x399]), (0xFB00, [0x46, 0x46]), (0xFB01, [0x46, 0x49]), (0xFB02, [0x46, 0x4C]),
   (0xFB03, [0x46, 0x46, 0x49]), (0xFB04, [0x46, 0x46, 0x4C]), (0xFB05, [0x53, 0x54]),
   (0xFB06, [0x53, 0x54]), (0xFB13, [0x544, 0x546]), (0xFB14, [0x544, 0x535]), (0xFB15, [0x544, 0x53B]),
   (0xFB16, [0x54E, 0x546]), (0xFB17, [0x544, 0x53D])]

/-- The first of eight letters with a small iota, and the capital of the first one without it. -/
def iotaRuns : List (Nat × Nat) :=
  [(0x1F80, 0x1F08), (0x1F88, 0x1F08), (0x1F90, 0x1F28), (0x1F98, 0x1F28), (0x1FA0, 0x1F68), (0x1FA8, 0x1F68)]

def capital (c : Char) : List Char :=
  let n := c.toNat
  match capitalSpellings.lookup n, iotaRuns.find? fun (first, _) => first ≤ n && n < first + 8 with
  | some spelling, _ => spelling.map Char.ofNat
  | none, some (first, plain) => [Char.ofNat (plain + (n - first)), Char.ofNat 0x399]
  | none, none => [Char.ofNat (n + capitalDistance capitalRuns n).toNat]

end ObjcLowering.Text
