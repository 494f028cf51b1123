import WorkLedger.Bytes

/-! Self-delimiting binary records. A number takes one byte below 251; above, a marker says how many
bytes follow, least significant first. Texts, byte strings and lists start with their length, and an
optional value with a byte 0 or 1. Reading gives the value and the bytes behind it. -/

namespace WorkLedger

class Binary (α : Type) where
  encode : α → Bytes
  decode : Bytes → Option (α × Bytes)

namespace Binary

/-- The value at the front of the bytes; what follows it is ignored. -/
def read? {α : Type} [Binary α] (bytes : Bytes) : Option α := (decode bytes).map Prod.fst

/-- Takes `width` bytes as a number, least significant first. -/
def readFixed (width : Nat) (bytes : Bytes) : Option (Nat × Bytes) :=
  if width ≤ bytes.length then some (Bytes.ofLittleEndian (bytes.take width), bytes.drop width)
  else none

def writeNumber (n : Nat) : Bytes :=
  if n < 251 then [UInt8.ofNat n]
  else if n < UInt16.size then 251 :: Bytes.littleEndian 2 n
  else if n < UInt32.size then 252 :: Bytes.littleEndian 4 n
  else 253 :: Bytes.littleEndian 8 n

/-- Reads a number whose type has `width` bytes: a marker for more of them is refused, one for
fewer or for a number that needed none is taken. -/
def readNumber (width : Nat) : Bytes → Option (Nat × Bytes)
  | [] => none
  | b :: rest =>
    if b < 251 then some (b.toNat, rest)
    else if b == 251 && 2 ≤ width then readFixed 2 rest
    else if b == 252 && 4 ≤ width then readFixed 4 rest
    else if b == 253 && 8 ≤ width then readFixed 8 rest
    else none

/-- Signed numbers near zero get small codes: 0, -1, 1, -2, … -/
def zigzag (i : Int) : Nat := if 0 ≤ i then 2 * i.toNat else 2 * (-i).toNat - 1

def unzigzag (n : Nat) : Int := if n % 2 = 0 then (n / 2 : Nat) else -((n / 2 : Nat) + 1 : Int)

instance : Binary UInt8 where
  encode b := [b]
  decode
    | [] => none
    | b :: rest => some (b, rest)

instance : Binary UInt32 where
  encode n := writeNumber n.toNat
  decode bytes := (readNumber 4 bytes).map fun (n, rest) => (UInt32.ofNat n, rest)

instance : Binary UInt64 where
  encode n := writeNumber n.toNat
  decode bytes := (readNumber 8 bytes).map fun (n, rest) => (UInt64.ofNat n, rest)

instance : Binary Int64 where
  encode i := writeNumber (zigzag i.toInt)
  decode bytes := (readNumber 8 bytes).map fun (n, rest) => (Int64.ofInt (unzigzag n), rest)

def readMany {α : Type} [Binary α] : Nat → Bytes → Option (List α × Bytes)
  | 0, bytes => some ([], bytes)
  | n + 1, bytes => do
    let (x, rest) ← decode bytes
    let (xs, rest) ← readMany n rest
    return (x :: xs, rest)

instance {α : Type} [Binary α] : Binary (List α) where
  encode xs := writeNumber xs.length ++ xs.flatMap encode
  decode bytes := do
    let (n, rest) ← readNumber 8 bytes
    readMany n rest

instance {α β : Type} [Binary α] [Binary β] : Binary (α × β) where
  encode p := encode p.1 ++ encode p.2
  decode bytes := do
    let (x, rest) ← decode bytes
    let (y, rest) ← decode rest
    return ((x, y), rest)

instance : Binary String where
  encode s := encode (Bytes.ofText s)
  decode bytes := do
    let (content, rest) ← (decode bytes : Option (Bytes × Bytes))
    return (← Bytes.toText? content, rest)

instance {α : Type} [Binary α] : Binary (Option α) where
  encode
    | none => [0]
    | some x => 1 :: encode x
  decode
    | 0 :: rest => some (none, rest)
    | 1 :: rest => (decode rest).map fun (x, rest) => (some x, rest)
    | _ => none

end Binary

end WorkLedger
