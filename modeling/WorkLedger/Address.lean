import WorkLedger.Bytes.Base58
import WorkLedger.Hash

/-! Addresses: a version byte, the fingerprint of a public key and a checksum, in base 58. -/

namespace WorkLedger.Address

/-- The address of a key with this fingerprint. -/
def ofFingerprint (fingerprint : Bytes) : String :=
  let payload := 0 :: fingerprint
  Base58.encode (payload ++ checksum payload)

def ofPublicKey (key : Bytes) : String := ofFingerprint (hash160 key)

/-- At least one byte before four that are its checksum. -/
def isValid (address : String) : Bool :=
  match Base58.decode address with
  | .error _ => false
  | .ok payload =>
    let size := payload.length - 4
    payload.length ≥ 5 && checksum (payload.take size) == payload.drop size

end WorkLedger.Address
