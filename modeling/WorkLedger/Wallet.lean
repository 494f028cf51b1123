import WorkLedger.Address
import WorkLedger.Block.Record
import WorkLedger.Error
import WorkLedger.KeyFile

/-! A wallet: stored key material and the public key that its address comes from. A wallet read back
from its record is taken as it is, so its key file may turn out to be unusable when it signs. -/

namespace WorkLedger

structure Wallet where
  keyFile : Bytes
  publicKey : Bytes
  deriving Repr, DecidableEq

namespace Wallet

instance : Binary Wallet where
  encode w := Binary.encode w.keyFile ++ Binary.encode w.publicKey
  decode bytes := do
    let (keyFile, bytes) ← Binary.decode bytes
    let (publicKey, bytes) ← Binary.decode bytes
    return (⟨keyFile, publicKey⟩, bytes)

def address (w : Wallet) : String := Address.ofPublicKey w.publicKey

def ofKeyFile (file : Bytes) : Except Error Wallet :=
  match KeyFile.read? file with
  | some (_, key) => .ok ⟨file, key⟩
  | none => .error .unreadableKey

/-- Scalars that make a key, from any number. -/
def secretOf (draw : Nat) : Nat := 1 + draw % (Curve.order - 1)

/-- The wallet of a freshly drawn number. -/
def ofDraw (draw : Nat) : Wallet :=
  let secret := secretOf draw
  let key := PublicKey.ofSecret secret
  ⟨KeyFile.write secret key, key⟩

/-- Signs a text with the first usable nonce from the drawn one on. -/
def signText (w : Wallet) (message : Bytes) (draw : Nat) : Except Error Bytes :=
  match KeyFile.read? w.keyFile with
  | none => .error .unreadableKey
  | some (secret, _) =>
    let nonces := (List.range 4).map fun i => secretOf (draw + i)
    match nonces.findSome? fun nonce => Signature.sign? secret nonce message with
    | some signature => .ok signature
    | none => .error (.crypto "Failed to sign message")

def sign (w : Wallet) (transfer : Transfer) (timestamp : Int64) (draw : Nat) :
    Except Error Transaction := do
  let signature ← w.signText (Bytes.ofText (Transaction.signedText transfer timestamp)) draw
  return ⟨transfer, timestamp, signature, w.publicKey⟩

end Wallet

end WorkLedger
