import WorkLedger.Bytes
import WorkLedger.Bytes.Radix
import WorkLedger.Text.Quoted

/-! Base 58: the bytes are one number, written with 58 letters and digits that do not look alike.
Zero bytes at the front carry no value, so each is kept as one letter `1` at the front. -/

namespace WorkLedger.Base58

def alphabet : List Char :=
  "123456789ABCDEFGHJKLMNPQRSTUVWXYZabcdefghijkmnopqrstuvwxyz".toList

def letter (d : Nat) : Char := alphabet.getD d '1'

/-- The digit that a byte of a text stands for. -/
def value? (b : UInt8) : Option Nat := alphabet.findIdx? (fun c => c.toNat == b.toNat)

def encode (bytes : Bytes) : String :=
  let zeros := bytes.takeWhile (· == 0)
  let number := Radix.value 256 (bytes.map UInt8.toNat)
  String.ofList (zeros.map (fun _ => '1') ++ (Radix.digits 58 number).map letter)

inductive Fault
  | badByte (byte : UInt8) (position : Nat)
  | notAscii (position : Nat)
  deriving Repr, DecidableEq

def Fault.message : Fault → String
  | .badByte byte position =>
    s!"provided string contained invalid character {Text.quoteByte byte} at byte {position}"
  | .notAscii position =>
    s!"provided string contained non-ascii character starting at byte {position}"

def readDigits (position : Nat) : Bytes → Except Fault (List Nat)
  | [] => .ok []
  | b :: rest =>
    if 128 ≤ b then .error (.notAscii position)
    else match value? b with
      | none => .error (.badByte b position)
      | some d => do
        let ds ← readDigits (position + 1) rest
        return d :: ds

def decode (text : String) : Except Fault Bytes := do
  let ds ← readDigits 0 (Bytes.ofText text)
  let zeros := ds.takeWhile (· == 0)
  return zeros.map (fun _ => 0) ++ (Radix.digits 256 (Radix.value 58 ds)).map UInt8.ofNat

end WorkLedger.Base58
