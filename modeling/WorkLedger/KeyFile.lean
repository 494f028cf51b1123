import WorkLedger.Signature

/-! Stored key material: a private P-256 key wrapped with the name of its curve and its public half.
Reading checks every field and that both halves belong together. -/

namespace WorkLedger.KeyFile

/-- The name of the curve, as a tagged object identifier. -/
def curveName : Bytes := [0x06, 0x08, 0x2a, 0x86, 0x48, 0xce, 0x3d, 0x03, 0x01, 0x07]

/-- "Elliptic curve key" followed by the curve. -/
def algorithm : Bytes := [0x06, 0x07, 0x2a, 0x86, 0x48, 0xce, 0x3d, 0x02, 0x01] ++ curveName

/-- A value that may be left out: what it holds must pass `accept`. -/
def skipOptional (tag : UInt8) (accept : Bytes → Bool) (bytes : Bytes) : Option Bytes :=
  if bytes.head? == some tag then do
    let (content, rest) ← Der.read tag bytes
    guard (accept content)
    return rest
  else some bytes

/-- The private and public bytes of the inner key. -/
def readHalves (inner : Bytes) : Option (Bytes × Bytes) := do
  let content ← Der.readAll Der.sequence inner
  let (version, rest) ← Der.readSmall content
  guard (version == 1)
  let (secret, rest) ← Der.read Der.octetString rest
  let rest ← skipOptional Der.context0 (· == curveName) rest
  let holder ← Der.readAll Der.context1 rest
  match ← Der.readAll Der.bitString holder with
  | 0 :: key => return (secret, key)
  | _ => none

/-- The secret scalar and the public key of a key file. -/
def read? (file : Bytes) : Option (Nat × Bytes) := do
  let content ← Der.readAll Der.sequence file
  let (version, rest) ← Der.readSmall content
  guard (version == 0)
  let (kind, rest) ← Der.read Der.sequence rest
  guard (kind == algorithm)
  let (inner, rest) ← Der.read Der.octetString rest
  let rest ← skipOptional Der.context0 (fun _ => true) rest
  guard rest.isEmpty
  let (secret, key) ← readHalves inner
  guard (secret.length == 32)
  let scalar ← Signature.scalar? secret
  guard (PublicKey.ofSecret scalar.val == key)
  return (scalar.val, key)

/-- The key file of a secret scalar and its public key. -/
def write (secret : Nat) (key : Bytes) : Bytes :=
  let inner := Der.write Der.sequence
    (Der.writeNatural 1 ++ Der.write Der.octetString (Bytes.bigEndian 32 secret) ++
      Der.write Der.context1 (Der.write Der.bitString (0 :: key)))
  Der.write Der.sequence
    (Der.writeNatural 0 ++ Der.write Der.sequence algorithm ++ Der.write Der.octetString inner)

end WorkLedger.KeyFile
