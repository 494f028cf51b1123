import WorkLedger.Bytes

/-! RIPEMD-160. Each block of 64 bytes goes through two lanes of five stages with sixteen steps;
a step takes one word of the block, turns the sum and passes the five registers on. -/

namespace WorkLedger.Ripemd160

structure Registers where
  a : UInt32
  b : UInt32
  c : UInt32
  d : UInt32
  e : UInt32

def Registers.start : Registers := ⟨1732584193, 4023233417, 2562383102, 271733878, 3285377520⟩

def rotateLeft (x k : UInt32) : UInt32 := (x <<< k) ||| (x >>> (32 - k))

def mix0 (x y z : UInt32) : UInt32 := x ^^^ y ^^^ z
def mix1 (x y z : UInt32) : UInt32 := (x &&& y) ||| ((~~~ x) &&& z)
def mix2 (x y z : UInt32) : UInt32 := (x ||| (~~~ y)) ^^^ z
def mix3 (x y z : UInt32) : UInt32 := (x &&& z) ||| (y &&& (~~~ z))
def mix4 (x y z : UInt32) : UInt32 := x ^^^ (y ||| (~~~ z))

/-- Sixteen steps with one mixing function and one constant: which word, and how far to turn. -/
structure Stage where
  mix : UInt32 → UInt32 → UInt32 → UInt32
  constant : UInt32
  steps : List (Nat × UInt32)

/-- The constants are the square roots of 0, 2, 3, 5 and 7, scaled to 30 bits. -/
def leftLane : List Stage :=
  [⟨mix0, 0,
     [(0, 11), (1, 14), (2, 15), (3, 12), (4, 5), (5, 8), (6, 7), (7, 9),
      (8, 11), (9, 13), (10, 14), (11, 15), (12, 6), (13, 7), (14, 9), (15, 8)]⟩,
   ⟨mix1, 1518500249,
     [(7, 7), (4, 6), (13, 8), (1, 13), (10, 11), (6, 9), (15, 7), (3, 15),
      (12, 7), (0, 12), (9, 15), (5, 9), (2, 11), (14, 7), (11, 13), (8, 12)]⟩,
   ⟨mix2, 1859775393,
     [(3, 11), (10, 13), (14, 6), (4, 7), (9, 14), (15, 9), (8, 13), (1, 15),
      (2, 14), (7, 8), (0, 13), (6, 6), (13, 5), (11, 12), (5, 7), (12, 5)]⟩,
   ⟨mix3, 2400959708,
     [(1, 11), (9, 12), (11, 14), (10, 15), (0, 14), (8, 15), (12, 9), (4, 8),
      (13, 9), (3, 14), (7, 5), (15, 6), (14, 8), (5, 6), (6, 5), (2, 12)]⟩,
   ⟨mix4, 2840853838,
     [(4, 9), (0, 15), (5, 5), (9, 11), (7, 6), (12, 8), (2, 13), (10, 12),
      (14, 5), (1, 12), (3, 13), (8, 14), (11, 11), (6, 8), (15, 5), (13, 6)]⟩]

/-- The constants are the cube roots of 2, 3, 5, 7 and 0, scaled to 30 bits. -/
def rightLane : List Stage :=
  [⟨mix4, 1352829926,
     [(5, 8), (14, 9), (7, 9), (0, 11), (9, 13), (2, 15), (11, 15), (4, 5),
      (13, 7), (6, 7), (15, 8), (8, 11), (1, 14), (10, 14), (3, 12), (12, 6)]⟩,
   ⟨mix3, 1548603684,
     [(6, 9), (11, 13), (3, 15), (7, 7), (0, 12), (13, 8), (5, 9), (10, 11),
      (14, 7), (15, 7), (8, 12), (12, 7), (4, 6), (9, 15), (1, 13), (2, 11)]⟩,
   ⟨mix2, 1836072691,
     [(15, 9), (5, 7), (1, 15), (3, 11), (7, 8), (14, 6), (6, 6), (9, 14),
      (11, 12), (8, 13), (12, 5), (2, 14), (10, 13), (0, 13), (4, 7), (13, 5)]⟩,
   ⟨mix1, 2053994217,
     [(8, 15), (6, 5), (4, 8), (1, 11), (3, 14), (11, 14), (15, 6), (0, 14),
      (5, 6), (12, 9), (2, 12), (13, 9), (9, 12), (7, 5), (10, 15), (14, 8)]⟩,
   ⟨mix0, 0,
     [(12, 8), (15, 5), (10, 12), (4, 9), (1, 12), (5, 5), (8, 14), (7, 6),
      (6, 8), (2, 13), (13, 6), (14, 5), (0, 15), (3, 13), (9, 11), (11, 11)]⟩]

def step (words : List UInt32) (stage : Stage) (r : Registers) (s : Nat × UInt32) : Registers :=
  let sum := r.a + stage.mix r.b r.c r.d + words.getD s.1 0 + stage.constant
  ⟨r.e, rotateLeft sum s.2 + r.e, r.b, rotateLeft r.c 10, r.d⟩

def runLane (words : List UInt32) (lane : List Stage) (r : Registers) : Registers :=
  lane.foldl (fun r stage => stage.steps.foldl (step words stage) r) r

def compress (r : Registers) (words : List UInt32) : Registers :=
  let left := runLane words leftLane r
  let right := runLane words rightLane r
  ⟨r.b + left.c + right.d, r.c + left.d + right.e, r.d + left.e + right.a,
    r.e + left.a + right.b, r.a + left.b + right.c⟩

/-- Words are least significant byte first. -/
def wordsOf : Bytes → List UInt32
  | b0 :: b1 :: b2 :: b3 :: rest =>
    UInt32.ofNat (Bytes.ofLittleEndian [b0, b1, b2, b3]) :: wordsOf rest
  | _ => []

def compressAll : (blocks : Nat) → List UInt32 → Registers → Registers
  | 0, _, r => r
  | blocks + 1, words, r => compressAll blocks (words.drop 16) (compress r (words.take 16))

def pad (message : Bytes) : Bytes :=
  let size := message.length
  message ++ 0x80 :: (List.replicate ((119 - size % 64) % 64) 0 ++ Bytes.littleEndian 8 (8 * size))

def Registers.bytes (r : Registers) : Bytes :=
  [r.a, r.b, r.c, r.d, r.e].flatMap fun w => Bytes.littleEndian 4 w.toNat

end Ripemd160

/-- The 20 bytes of the RIPEMD-160 digest. -/
def ripemd160 (message : Bytes) : Bytes :=
  let words := Ripemd160.wordsOf (Ripemd160.pad message)
  (Ripemd160.compressAll (words.length / 16) words .start).bytes

end WorkLedger
