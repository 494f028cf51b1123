import WorkLedger.Bytes

/-! Tagged values with a length in front, in the one spelling that the distinguished rules allow:
the shortest length, at most two length bytes, and whole numbers without a spare leading zero. -/

namespace WorkLedger.Der

def integer : UInt8 := 0x02
def bitString : UInt8 := 0x03
def octetString : UInt8 := 0x04
def sequence : UInt8 := 0x30
def context0 : UInt8 := 0xa0
def context1 : UInt8 := 0xa1

/-- The length and what follows it. -/
def readLength : Bytes → Option (Nat × Bytes)
  | 0x81 :: n :: rest => if n < 128 then none else some (n.toNat, rest)
  | 0x82 :: high :: low :: rest =>
    let n := 256 * high.toNat + low.toNat
    if n < 256 then none else some (n, rest)
  | n :: rest => if n < 128 then some (n.toNat, rest) else none
  | [] => none

/-- The content of a value with this tag, and what follows the value. -/
def read (tag : UInt8) : Bytes → Option (Bytes × Bytes)
  | [] => none
  | t :: rest => do
    guard (t == tag)
    let (size, rest) ← readLength rest
    guard (size ≤ rest.length)
    return (rest.take size, rest.drop size)

/-- The bytes of a whole number that is not negative, without the zero that keeps its sign. -/
def readNatural (bytes : Bytes) : Option (Bytes × Bytes) := do
  let (content, rest) ← read integer bytes
  match content with
  | [] => none
  | [0] => return ([0], rest)
  | 0 :: second :: more => if second < 128 then none else return (second :: more, rest)
  | first :: _ => if first < 128 then return (content, rest) else none

/-- A number of one byte. -/
def readSmall (bytes : Bytes) : Option (UInt8 × Bytes) := do
  match ← readNatural bytes with
  | ([n], rest) => return (n, rest)
  | _ => none

/-- The content of a value that has nothing after it. -/
def readAll (tag : UInt8) (bytes : Bytes) : Option Bytes := do
  let (content, rest) ← read tag bytes
  guard rest.isEmpty
  return content

def writeLength (n : Nat) : Bytes :=
  if n < 128 then [UInt8.ofNat n]
  else if n < 256 then [0x81, UInt8.ofNat n]
  else 0x82 :: Bytes.bigEndian 2 n

def write (tag : UInt8) (content : Bytes) : Bytes := tag :: (writeLength content.length ++ content)

/-- A number below `2^256` without spare zeros, with one where the sign needs it. -/
def writeNatural (n : Nat) : Bytes :=
  let short := (Bytes.bigEndian 32 n).dropWhile (· == 0)
  let signed := match short with
    | [] => [0]
    | first :: _ => if first < 128 then short else 0 :: short
  write integer signed

end WorkLedger.Der
