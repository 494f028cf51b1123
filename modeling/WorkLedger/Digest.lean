import WorkLedger.Hash
import WorkLedger.Transaction

/-! What a block commits to. Its digest binds the transactions in their order; its hash binds the
reward, the height, the time, the nonce, the hash before it and the digest. -/

namespace WorkLedger

/-- Each transaction is hashed alone, and the hashes are hashed together, one a line. -/
def digestText : List Transaction → String
  | [] => "No transactions"
  | ts => "\n".intercalate (ts.map fun t => sha256Hex t.text)

def transactionsDigest (ts : List Transaction) : String := sha256Hex (digestText ts)

/-- The fields of a block that its hash covers. -/
structure Header where
  reward : Option Reward
  height : UInt32
  timestamp : Int64
  nonce : UInt64
  previousHash : String
  digest : String
  deriving Repr, DecidableEq

def Header.text (h : Header) : String :=
  Reward.textOf h.reward ++ toString h.height.toNat ++ toString h.timestamp.toInt ++
    toString h.nonce.toNat ++ h.previousHash ++ h.digest

def Header.hash (h : Header) : String := sha256Hex h.text

/-- A hash shows the work of `difficulty` if it starts with that many zeros. -/
def meetsDifficulty (hash : String) (difficulty : Nat) : Bool :=
  difficulty ≤ (hash.toList.takeWhile (· == '0')).length

end WorkLedger
