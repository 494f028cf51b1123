import WorkLedger.Block
import WorkLedger.Moment

/-! Proof of work: a candidate is a block with all but its nonce and hash, and the search tries
nonces until the hash shows the work. Whether to go on is asked before every 4096th attempt,
starting with the first. The nonces and the answers are given as sequences, so a search is a
function of them. -/

namespace WorkLedger

structure Candidate where
  height : UInt32
  previousHash : String
  minerName : String
  reward : Reward
  transactions : List Transaction
  digest : String
  difficulty : Nat

namespace Candidate

/-- A candidate on top of a block. -/
def on (previous : Block) (transactions : List Transaction) (minerName : String) (reward : Reward)
    (difficulty : Nat) : Candidate where
  height := previous.height + 1
  previousHash := previous.hash
  minerName := minerName
  reward := reward
  transactions := transactions
  digest := transactionsDigest transactions
  difficulty := difficulty

def header (c : Candidate) (timestamp : Int64) (nonce : UInt64) : Header where
  reward := some c.reward
  height := c.height
  timestamp := timestamp
  nonce := nonce
  previousHash := c.previousHash
  digest := c.digest

/-- The finished block. -/
def block (c : Candidate) (timestamp : Int64) (nonce : UInt64) (hash : String) : Block where
  height := c.height
  timestamp := timestamp
  digest := c.digest
  nonce := nonce
  previousHash := c.previousHash
  hash := hash
  minerName := c.minerName
  reward := some c.reward
  transactions := c.transactions

/-- Nonces are drawn below `10 ^ (difficulty + 4)`, or below the greatest word if that is less. -/
def nonceBound (c : Candidate) : Nat :=
  if c.difficulty < 16 then Nat.pow 10 (c.difficulty + 4) else UInt64.size - 1

/-- Nonces below the bound, as chance has it. -/
def nonces (c : Candidate) (chance : Chance) (i : Nat) : UInt64 :=
  UInt64.ofNat (chance.number i % c.nonceBound)

/-- The block of one attempt, if its hash shows the work. -/
def attempt? (c : Candidate) (timestamp : Int64) (nonce : UInt64) : Option Block :=
  let hash := (c.header timestamp nonce).hash
  if meetsDifficulty hash c.difficulty then some (c.block timestamp nonce hash) else none

/-- The first hit among `count` attempts from number `first` on. -/
def firstHit (c : Candidate) (timestamp : Int64) (nonces : Nat → UInt64) :
    (count first : Nat) → Option Block
  | 0, _ => none
  | count + 1, first =>
    (c.attempt? timestamp (nonces first)).or (c.firstHit timestamp nonces count (first + 1))

/-- How many attempts go by between two questions whether to stop. -/
def pollInterval : Nat := 4096

inductive Outcome
  | found (block : Block)
  /-- The answer to this poll, counted from zero, was to stop. -/
  | stopped (poll : Nat)
  | unfinished

/-- Searches for `rounds` rounds, each a poll and the attempts up to the next one. -/
def search (c : Candidate) (timestamp : Int64) (nonces : Nat → UInt64) (stop : Nat → Bool) :
    (rounds poll : Nat) → Outcome
  | 0, _ => .unfinished
  | rounds + 1, poll =>
    if stop poll then .stopped poll
    else match c.firstHit timestamp nonces pollInterval (poll * pollInterval) with
      | some block => .found block
      | none => c.search timestamp nonces stop rounds (poll + 1)

end Candidate

/-- The stated hash of a block shows the work and is the hash of its fields. -/
def Block.showsWork (b : Block) (difficulty : Nat) : Bool :=
  meetsDifficulty b.hash difficulty && b.computedHash == b.hash

end WorkLedger
