import WorkLedger.Bytes
import WorkLedger.Text.Quoted

/-! Two hexadecimal digits for a byte. Writing uses small letters; reading takes both cases, looks
at the UTF-8 bytes of the text, and reports an odd number of them before any bad digit. -/

namespace WorkLedger.Hex

def digit (n : Nat) : Char :=
  if n < 10 then Char.ofNat (48 + n) else Char.ofNat (87 + n)

def encodeByte (b : UInt8) : List Char := [digit (b.toNat / 16), digit (b.toNat % 16)]

def encode (bytes : Bytes) : String := String.ofList (bytes.flatMap encodeByte)

inductive Fault
  | oddLength
  | badByte (byte : UInt8) (position : Nat)
  deriving Repr, DecidableEq

def Fault.message : Fault → String
  | .oddLength => "Odd number of digits"
  | .badByte byte position => s!"Invalid character {Text.quoteByte byte} at position {position}"

/-- The value of a digit given as its byte. -/
def value? (b : UInt8) : Option Nat :=
  if 48 ≤ b && b ≤ 57 then some (b.toNat - 48)
  else if 97 ≤ b && b ≤ 102 then some (b.toNat - 87)
  else if 65 ≤ b && b ≤ 70 then some (b.toNat - 55)
  else none

def decodePairs (position : Nat) : Bytes → Except Fault Bytes
  | high :: low :: rest =>
    match value? high, value? low with
    | none, _ => .error (.badByte high position)
    | some _, none => .error (.badByte low (position + 1))
    | some h, some l => do
      let tail ← decodePairs (position + 2) rest
      return UInt8.ofNat (16 * h + l) :: tail
  | [_] => .error .oddLength
  | [] => .ok []

def decode (text : String) : Except Fault Bytes :=
  let digits := Bytes.ofText text
  if digits.length % 2 = 1 then .error .oddLength else decodePairs 0 digits

end WorkLedger.Hex
