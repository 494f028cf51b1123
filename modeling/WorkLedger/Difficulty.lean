import WorkLedger.Block

/-! How many leading zeros a block hash needs. Every third block, the average time of the last three
blocks decides whether the next ones get harder or easier, one step at a time. Times are counted in
words of 64 bits with a sign, and where a difference or a sum is too large for one, it wraps
around. -/

namespace WorkLedger

structure Difficulty where
  zeros : Nat
  two_le_zeros : 2 ≤ zeros
  zeros_le_six : zeros ≤ 6
  deriving DecidableEq

namespace Difficulty

/-- The nearest difficulty that is allowed. -/
def ofNat (n : Nat) : Difficulty := ⟨max 2 (min n 6), by omega, by omega⟩

/-- A difficulty that is allowed is its own nearest. -/
theorem ofNat_zeros (d : Difficulty) : ofNat d.zeros = d := by
  obtain ⟨n, hl, hu⟩ := d
  have h : max 2 (min n 6) = n := by omega
  simp only [ofNat, h]

/-- What a ledger starts from when nothing else is said. -/
def initial : Difficulty := ofNat 5

/-- An adjustment is made at every height that is a multiple of this. -/
def period : Nat := 3

/-- How many intervals are averaged, at most. -/
def window : Nat := 3

/-- What a word keeps of a number: the number itself if it fits, and else the one in range that
differs from it by a multiple of `2 ^ 64`. -/
def wrap (x : Int) : Int := (Int64.ofInt x).toInt

/-- Time between each entry and the next (ms). -/
def gaps (times : List Int) : List Int :=
  List.zipWith (fun newer older => wrap (newer - older)) times.tail times

/-- All of these together, added up from the first on. -/
def total (times : List Int) : Int := times.foldl (fun sum time => wrap (sum + time)) 0

/-- Average time between blocks up to `height`, toward zero. The gap after the first block does not
count, because nobody mined that one. -/
def averageGap (times : List Int) (height : Nat) : Option Int :=
  let first := max (height - window) 1
  if height < times.length ∧ first < height then
    let counted := (times.take (height + 1)).drop first
    some (Int.tdiv (total (gaps counted)) (height - first : Nat))
  else none

/-- One step for an average in whole seconds: 15 are wanted, three more or less are tolerated. Where
the range ends, there is no step. -/
def next (d : Difficulty) (seconds : Int) : Difficulty :=
  have hl := d.two_le_zeros
  have hu := d.zeros_le_six
  if _ : seconds < 12 ∧ d.zeros < 6 then ⟨d.zeros + 1, by omega, by omega⟩
  else if _ : 18 < seconds ∧ 2 < d.zeros then ⟨d.zeros - 1, by omega, by omega⟩
  else d

/-- The step after a block of this height, for blocks made at these times (ms). -/
def step (d : Difficulty) (times : List Int) (height : Nat) : Difficulty :=
  match averageGap times height with
  | some average => d.next (Int.tdiv average 1000)
  | none => d

def timesOf (chain : List Block) : List Int := chain.map (·.timestamp.toInt)

/-- The difficulty after the last block of the chain was added under difficulty `d`. -/
def adjust (d : Difficulty) (chain : List Block) : Difficulty :=
  match chain.getLast? with
  | none => d
  | some newest =>
    let height := newest.height.toNat
    if height = 0 ∨ height % period ≠ 0 then d else d.step (timesOf chain) height

/-- The heights below `count` at which an adjustment is made. -/
def adjustmentHeights (count : Nat) : List Nat :=
  (List.range ((count - 1) / period)).map fun i => (i + 1) * period

/-- The difficulty after a chain whose blocks were made at these times, replayed from the start. -/
def ofTimes (times : List Int) : Difficulty :=
  (adjustmentHeights times.length).foldl (fun d height => d.step times height) initial

def ofChain (chain : List Block) : Difficulty := ofTimes (timesOf chain)

end Difficulty

end WorkLedger
