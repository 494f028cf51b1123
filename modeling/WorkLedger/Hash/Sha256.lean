import WorkLedger.Bytes

/-! SHA-256. The message is padded to blocks of 64 bytes, each block is spread to 64 words and
mixed into a state of eight words in 64 rounds. The state is carried as eight separate arguments
through the rounds, because mining spends its time there. -/

namespace WorkLedger.Sha256

/-- The first 32 bits of the fractional parts of the cube roots of the first 64 primes. -/
def roundConstants : Array UInt32 :=
  #[1116352408, 1899447441, 3049323471, 3921009573, 961987163, 1508970993, 2453635748,
    2870763221, 3624381080, 310598401, 607225278, 1426881987, 1925078388, 2162078206,
    2614888103, 3248222580, 3835390401, 4022224774, 264347078, 604807628, 770255983,
    1249150122, 1555081692, 1996064986, 2554220882, 2821834349, 2952996808, 3210313671,
    3336571891, 3584528711, 113926993, 338241895, 666307205, 773529912, 1294757372,
    1396182291, 1695183700, 1986661051, 2177026350, 2456956037, 2730485921, 2820302411,
    3259730800, 3345764771, 3516065817, 3600352804, 4094571909, 275423344, 430227734,
    506948616, 659060556, 883997877, 958139571, 1322822218, 1537002063, 1747873779,
    1955562222, 2024104815, 2227730452, 2361852424, 2428436474, 2756734187, 3204031479,
    3329325298]

structure State where
  a : UInt32
  b : UInt32
  c : UInt32
  d : UInt32
  e : UInt32
  f : UInt32
  g : UInt32
  h : UInt32
  deriving DecidableEq

/-- The first 32 bits of the fractional parts of the square roots of the first eight primes. -/
def State.start : State :=
  ⟨1779033703, 3144134277, 1013904242, 2773480762, 1359893119, 2600822924, 528734635, 1541459225⟩

@[inline] def rotateRight (x k : UInt32) : UInt32 := (x >>> k) ||| (x <<< (32 - k))

@[inline] def byteAt (message : ByteArray) (i : Nat) : UInt32 :=
  if h : i < message.size then message[i].toUInt32 else 0

@[inline] def wordAt (message : ByteArray) (i : Nat) : UInt32 :=
  (byteAt message i <<< 24) ||| (byteAt message (i + 1) <<< 16) |||
    (byteAt message (i + 2) <<< 8) ||| byteAt message (i + 3)

/-- The first 16 words of a block, as they stand in the message. -/
def load (message : ByteArray) : (count position : Nat) → Array UInt32 → Array UInt32
  | 0, _, words => words
  | count + 1, position, words =>
    load message count (position + 4) (words.push (wordAt message position))

/-- Each further word depends on four of the sixteen before it. -/
def extend : (count : Nat) → Array UInt32 → Array UInt32
  | 0, words => words
  | count + 1, words =>
    let i := words.size
    let x := words.getD (i - 15) 0
    let y := words.getD (i - 2) 0
    let s0 := rotateRight x 7 ^^^ rotateRight x 18 ^^^ (x >>> 3)
    let s1 := rotateRight y 17 ^^^ rotateRight y 19 ^^^ (y >>> 10)
    extend count (words.push (words.getD (i - 16) 0 + s0 + words.getD (i - 7) 0 + s1))

/-- The last `count` of the 64 rounds. -/
def rounds (words : Array UInt32) :
    (count : Nat) → (a b c d e f g h : UInt32) → State
  | 0, a, b, c, d, e, f, g, h => ⟨a, b, c, d, e, f, g, h⟩
  | count + 1, a, b, c, d, e, f, g, h =>
    let i := 63 - count
    let s1 := rotateRight e 6 ^^^ rotateRight e 11 ^^^ rotateRight e 25
    let choice := (e &&& f) ^^^ ((~~~ e) &&& g)
    let t1 := h + s1 + choice + roundConstants.getD i 0 + words.getD i 0
    let s0 := rotateRight a 2 ^^^ rotateRight a 13 ^^^ rotateRight a 22
    let majority := (a &&& b) ^^^ (a &&& c) ^^^ (b &&& c)
    rounds words count (t1 + s0 + majority) a b c (d + t1) e f g

/-- Mixes the block that starts at `position` into the state. -/
def compress (message : ByteArray) (position : Nat) (s : State) : State :=
  let words := extend 48 (load message 16 position (Array.emptyWithCapacity 64))
  let r := rounds words 64 s.a s.b s.c s.d s.e s.f s.g s.h
  ⟨s.a + r.a, s.b + r.b, s.c + r.c, s.d + r.d, s.e + r.e, s.f + r.f, s.g + r.g, s.h + r.h⟩

def compressAll (message : ByteArray) : (blocks position : Nat) → State → State
  | 0, _, s => s
  | blocks + 1, position, s =>
    compressAll message blocks (position + 64) (compress message position s)

/-- One set bit, zeros up to eight bytes short of a block, and the length in bits. -/
def padding (size : Nat) : Bytes :=
  0x80 :: (List.replicate ((119 - size % 64) % 64) 0 ++ Bytes.bigEndian 8 (8 * size))

def pad (message : ByteArray) : ByteArray := (padding message.size).foldl ByteArray.push message

def State.words (s : State) : List UInt32 := [s.a, s.b, s.c, s.d, s.e, s.f, s.g, s.h]

def State.bytes (s : State) : Bytes := s.words.flatMap fun w => Bytes.bigEndian 4 w.toNat

def finalState (message : ByteArray) : State :=
  let padded := pad message
  compressAll padded (padded.size / 64) 0 State.start

end Sha256

/-- The 32 bytes of the SHA-256 digest. -/
def sha256 (message : Bytes) : Bytes := (Sha256.finalState ⟨message.toArray⟩).bytes

end WorkLedger
