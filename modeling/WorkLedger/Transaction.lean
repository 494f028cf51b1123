import WorkLedger.Signature

/-! Transfers between addresses, the signed transactions that carry them, and the reward of a miner.
The texts in this module are hashed and signed, so every character of them counts. -/

namespace WorkLedger

/-- Who pays whom how much. -/
structure Transfer where
  sender : String
  receiver : String
  amount : UInt64
  deriving Repr, DecidableEq

def Transfer.text (t : Transfer) : String :=
  t.sender ++ " sent " ++ toString t.amount.toNat ++ " VC to " ++ t.receiver

/-- A transfer with the time it was made (ms), a signature over both and the key that checks it. -/
structure Transaction where
  transfer : Transfer
  timestamp : Int64
  signature : Bytes
  publicKey : Bytes
  deriving Repr, DecidableEq

namespace Transaction

def sender (t : Transaction) : String := t.transfer.sender
def receiver (t : Transaction) : String := t.transfer.receiver
def amount (t : Transaction) : UInt64 := t.transfer.amount

/-- The text that is signed, and hashed into the digest of a block. -/
def signedText (transfer : Transfer) (timestamp : Int64) : String :=
  transfer.text ++ "\n" ++ toString timestamp.toInt

def text (t : Transaction) : String := signedText t.transfer t.timestamp

/-- What makes two transactions the same one. The key is left out: a copy under another key is not
a new transaction, a transfer sent again at another time is. -/
structure Identity where
  transfer : Transfer
  timestamp : Int64
  signature : Bytes
  deriving Repr, DecidableEq

def identity (t : Transaction) : Identity := ⟨t.transfer, t.timestamp, t.signature⟩

/-- Whether some transaction of the list is the same one as `t`. -/
def occursIn (t : Transaction) (ts : List Transaction) : Bool :=
  ts.any fun u => u.identity == t.identity

/-- The signature checks out under the key that the transaction carries. -/
def isSigned (t : Transaction) : Bool :=
  Signature.verify t.publicKey t.signature (Bytes.ofText t.text)

end Transaction

/-- Coins minted for the miner of a block, taken from nobody. -/
structure Reward where
  miner : String
  amount : UInt64
  deriving Repr, DecidableEq

def Reward.text (r : Reward) : String := r.miner ++ " gets " ++ toString r.amount.toNat ++ " VC"

/-- A reward as it enters the hash of a block. -/
def Reward.textOf : Option Reward → String
  | some r => r.text
  | none => "No reward"

end WorkLedger
