import WorkLedger.Text.Pattern

/-! The room that the machine of a pattern takes. It reads bytes, forwards to find a match and
backwards to find its beginning, and it has a state for each byte that it may wait for. A repetition
takes the room of what is repeated once for each time, so a short pattern may take too much. -/

namespace WorkLedger.Text.Pattern

/-- The first and the last byte at each position. -/
abbrev ByteRanges := List (Nat × Nat)

/-- The bytes of the character with a number, in UTF-8. -/
def utf8Bytes (n : Nat) : List Nat :=
  if n < 0x80 then [n]
  else if n < 0x800 then [0xc0 + n / 64, 0x80 + n % 64]
  else if n < 0x10000 then [0xe0 + n / 4096, 0x80 + n / 64 % 64, 0x80 + n % 64]
  else [0xf0 + n / 262144, 0x80 + n / 4096 % 64, 0x80 + n / 64 % 64, 0x80 + n % 64]

/-- A place where a range has to be cut to be one range of bytes at each position: the last number
before the cut. -/
def cut? (first last : Nat) : Option Nat :=
  let sizes := [0x7f, 0x7ff, 0xffff].filterMap fun limit =>
    if first ≤ limit ∧ limit < last then some limit else none
  let tails := [64, 4096, 262144].filterMap fun block =>
    if last < 0x80 ∨ first / block = last / block then none
    else if first % block ≠ 0 then some (first / block * block + (block - 1))
    else if last % block ≠ block - 1 then some (last / block * block - 1)
    else none
  (sizes ++ tails).head?

def byteRanges : (rounds first last : Nat) → List ByteRanges
  | 0, _, _ => []
  | rounds + 1, first, last =>
    match cut? first last with
    | some middle => byteRanges rounds first middle ++ byteRanges rounds (middle + 1) last
    | none => [(utf8Bytes first).zip (utf8Bytes last)]

/-- The numbers between these belong to no character. -/
def surrogates : CharSet := ⟨[(0xd800, 0xdfff)]⟩

/-- The bytes that the characters of a set have. -/
def byteRangesOf (set : CharSet) : List ByteRanges :=
  (set.diff surrogates).ranges.flatMap fun (first, last) => byteRanges 64 first last

/-- The room of a state, in bytes. -/
def stateRoom : Nat := 32

/-- The room of a way from a state that reads a byte. -/
def readRoom : Nat := 8

/-- The room of a way from a state that reads nothing. -/
def wayRoom : Nat := 4

inductive Direction
  | forwards
  | backwards
  deriving DecidableEq

/-- Forwards, equal ends of ways are shared; backwards, equal beginnings are. -/
def setRoom (direction : Direction) (set : CharSet) : Nat :=
  match set.ranges with
  | [(first, last)] =>
    if first = last then stateRoom * (utf8Bytes first).length else manyRoom
  | _ => manyRoom
where
  parts (way : ByteRanges) (part : Nat → ByteRanges) : List ByteRanges :=
    ((List.range way.length).map part).filter (· ≠ [])
  manyRoom : Nat :=
    if set.isAscii then 2 * stateRoom + readRoom * set.ranges.length
    else
      let ways := byteRangesOf set
      match direction with
      | .forwards =>
        let tails := (ways.flatMap fun way => parts way fun n => way.drop (n + 1)).eraseDups
        stateRoom * (2 + tails.length) + readRoom * (ways.length + tails.length)
      | .backwards =>
        let heads := (ways.flatMap fun way => parts way fun n => way.take (n + 1)).eraseDups
        stateRoom * (2 + heads.length) + wayRoom * ways.length

def room (direction : Direction) : Pattern → Nat
  | nothing | border _ | unknown => stateRoom
  | one set => setRoom direction set
  | join first second => room direction first + room direction second
  | either first second =>
    -- A choice between more than two has one fork.
    let fork := match second with
      | either .. => wayRoom
      | _ => 2 * stateRoom + 2 * wayRoom
    fork + room direction first + room direction second
  | group inside =>
    room direction inside + (if direction = .forwards then 2 * stateRoom else 0)
  | times repeated least most =>
    let once := room direction repeated
    match least, most with
    | 0, some 1 => 2 * stateRoom + 2 * wayRoom + once
    | 0, none =>
      if repeated.mayBeEmpty then 3 * stateRoom + 4 * wayRoom + once
      else stateRoom + 2 * wayRoom + once
    | least, none => least * once + stateRoom + 2 * wayRoom
    | least, some most =>
      if least = most then least * once
      else
        (if least = 0 then stateRoom else least * once) + stateRoom +
          (most - least) * (stateRoom + 2 * wayRoom + once)

/-- The room of a whole machine, which first skips what is in front of a match. -/
def machineRoom (direction : Direction) (p : Pattern) : Nat :=
  4 * stateRoom + readRoom + 2 * wayRoom + room direction (group p)

/-- The room that there is for a machine. -/
def roomLimit : Nat := 10485760

def fits (p : Pattern) : Bool :=
  p.machineRoom .forwards ≤ roomLimit && p.machineRoom .backwards ≤ roomLimit

end WorkLedger.Text.Pattern
