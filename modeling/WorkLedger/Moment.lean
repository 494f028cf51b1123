import WorkLedger.Error
import WorkLedger.Hash

/-! What a step of a run learns from outside the program: the time, and numbers that nobody can
foresee. Both are inputs, so that a step is a function of its moment, and they may be any at all. -/

namespace WorkLedger

/-- Numbers for each turn of a run. -/
structure Chance where
  numbers : (turn index : Nat) → Nat
  turn : Nat

namespace Chance

/-- The numbers of a seed, each below `2^256`: the turn and an index, hashed. -/
def ofSeed (seed : Nat) : Chance where
  numbers turn index :=
    Bytes.ofBigEndian (sha256 (Bytes.bigEndian 32 turn ++ Bytes.bigEndian 8 index))
  turn := seed

instance : Coe Nat Chance := ⟨ofSeed⟩

instance (n : Nat) : OfNat Chance n := ⟨ofSeed n⟩

def number (c : Chance) (index : Nat) : Nat := c.numbers c.turn index

def next (c : Chance) : Chance := { c with turn := c.turn + 1 }

end Chance

structure Moment where
  /-- Milliseconds since the epoch. -/
  now : Int64
  chance : Chance

namespace Moment

/-- The time as it is read for a block or a payment, which fails before the epoch. -/
def time (m : Moment) : Except Error Int64 :=
  if m.now < 0 then .error .clockBeforeEpoch else .ok m.now

/-- The time that a block must be older than. While the clock cannot be read, no block is. -/
def deadline (m : Moment) : Int64 := m.time.toOption.getD Int64.minValue

def draw (m : Moment) (index : Nat) : Nat := m.chance.number index

/-- A number below a bound that is not zero. -/
def below (m : Moment) (index bound : Nat) : Nat := m.draw index % bound

/-- A millisecond later, with other numbers. -/
def next (m : Moment) : Moment := ⟨m.now + 1, m.chance.next⟩

/-- One entry of a list, if there is any. -/
def pick {α : Type} (m : Moment) (index : Nat) (xs : List α) : Option α :=
  xs[m.below index xs.length]?

theorem eq_now_of_time {m : Moment} {time : Int64} (h : m.time = .ok time) : time = m.now := by
  rw [Moment.time] at h
  split at h
  · cases h
  · cases h
    rfl

theorem time_of_nonneg {m : Moment} (h : 0 ≤ m.now) : m.time = .ok m.now :=
  if_neg (Int64.not_lt.mpr h)

theorem deadline_of_nonneg {m : Moment} (h : 0 ≤ m.now) : m.deadline = m.now := by
  rw [deadline, time_of_nonneg h]
  rfl

theorem deadline_le (m : Moment) : m.deadline ≤ m.now := by
  rw [deadline, time]
  split
  · exact m.now.minValue_le
  · exact Int64.le_refl _

end Moment

end WorkLedger
