import WorkLedger.Curve
import WorkLedger.Hash
import WorkLedger.Signature.Der

/-! ECDSA over P-256 with SHA-256. A public key is an uncompressed point; a signature is a
sequence of two numbers. Whatever is malformed verifies as false. -/

namespace WorkLedger

open Curve

/-- The byte `04` and both coordinates, if they are residues of a point on the curve. -/
def PublicKey.point? (key : Bytes) : Option Point := do
  match key with
  | 4 :: coordinates =>
    guard (coordinates.length == 64)
    let x := Bytes.ofBigEndian (coordinates.take 32)
    let y := Bytes.ofBigEndian (coordinates.drop 32)
    guard (x < prime && y < prime)
    let (x, y) := (Coordinate.ofNat x, Coordinate.ofNat y)
    guard (onCurve x y)
    return Point.ofAffine x y
  | _ => none

/-- The public half of a secret scalar. -/
def PublicKey.ofSecret (secret : Nat) : Bytes :=
  match (Point.multiple secret Point.base).affine? with
  | some (x, y) => 4 :: (Bytes.bigEndian 32 x.val ++ Bytes.bigEndian 32 y.val)
  | none => []

namespace Signature

/-- A factor from one up to the order of the curve, in at most 32 bytes. -/
def scalar? (bytes : Bytes) : Option Scalar :=
  let n := Bytes.ofBigEndian bytes
  if bytes.length ≤ 32 && 0 < n && n < order then some (Scalar.ofNat n) else none

def parts? (signature : Bytes) : Option (Scalar × Scalar) := do
  let content ← Der.readAll Der.sequence signature
  let (r, rest) ← Der.readNatural content
  let (s, rest) ← Der.readNatural rest
  guard rest.isEmpty
  return (← scalar? r, ← scalar? s)

def digest (message : Bytes) : Scalar := Scalar.ofNat (Bytes.ofBigEndian (sha256 message))

def verify (publicKey signature message : Bytes) : Bool :=
  match PublicKey.point? publicKey, parts? signature with
  | some key, some (r, s) =>
    let w := inverse s
    let sum := Point.add (Point.multiple (digest message * w).val Point.base)
      (Point.multiple (r * w).val key)
    match sum.affine? with
    | some (x, _) => Scalar.ofNat x.val == r
    | none => false
  | _, _ => false

/-- Signs with a chosen nonce. There is no signature for the few nonces that make a part zero. -/
def sign? (secret nonce : Nat) (message : Bytes) : Option Bytes := do
  let (x, _) ← (Point.multiple nonce Point.base).affine?
  let r := Scalar.ofNat x.val
  let s := inverse (Scalar.ofNat nonce) * (digest message + r * Scalar.ofNat secret)
  guard (r.val != 0 && s.val != 0)
  return Der.write Der.sequence (Der.writeNatural r.val ++ Der.writeNatural s.val)

end Signature

end WorkLedger
