import WorkLedger.Digest

/-! Blocks, taken as they are: one that states a wrong hash or digest can be written down, and it is
the rules that turn it away. -/

namespace WorkLedger

structure Block where
  height : UInt32
  timestamp : Int64
  /-- The digest the block states, whatever it carries. -/
  digest : String
  nonce : UInt64
  previousHash : String
  /-- The hash the block states. -/
  hash : String
  minerName : String
  reward : Option Reward
  transactions : List Transaction
  deriving Repr, DecidableEq

namespace Block

/-- The first block of every chain. -/
def genesis : Block where
  height := 0
  timestamp := 0
  digest := ""
  nonce := 0
  previousHash := ""
  hash := "0"
  minerName := ""
  reward := none
  transactions := []

def isGenesis (b : Block) : Bool := b.height == 0

def header (b : Block) : Header where
  reward := b.reward
  height := b.height
  timestamp := b.timestamp
  nonce := b.nonce
  previousHash := b.previousHash
  digest := b.digest

/-- The hash that the fields of the block give. -/
def computedHash (b : Block) : String := b.header.hash

/-- The digest of what the block carries. -/
def computedDigest (b : Block) : String := transactionsDigest b.transactions

/-- Equal fields, with transactions compared by identity. -/
def sameAs (a b : Block) : Bool :=
  a.header == b.header && a.hash == b.hash && a.minerName == b.minerName &&
    a.transactions.map Transaction.identity == b.transactions.map Transaction.identity

/-- The block as it is shown to a reader, without a line break at the end. -/
def text (b : Block) : String :=
  let rewardLine := match b.reward with
    | some r => r.text ++ "\n"
    | none => ""
  let data := match b.transactions with
    | [] => " no transactions"
    | ts => String.join (ts.map fun t => "\n" ++ t.transfer.text)
  "Block:\nCreated by miner # " ++ b.minerName ++ "\n" ++ rewardLine ++
    "Id: " ++ toString b.height.toNat ++ "\nTimestamp: " ++ toString b.timestamp.toInt ++
    "\nTransactions hash:\n" ++ b.digest ++ "\nMagic number: " ++ toString b.nonce.toNat ++
    "\nHash of the previous block:\n" ++ b.previousHash ++
    "\nHash of the block:\n" ++ b.hash ++ "\nBlock data:" ++ data

end Block

end WorkLedger
