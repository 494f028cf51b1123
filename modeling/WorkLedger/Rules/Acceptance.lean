import WorkLedger.Balance
import WorkLedger.Stock

/-! Which blocks may follow a block. Each check names its own fault; they are made in the order of
this module, and the first fault is the verdict. -/

namespace WorkLedger

/-- Coins minted to the miner of every accepted block. -/
def rewardValue : UInt64 := 100

/-- Why a block was not appended. Losing a race shows as a wrong height or a wrong link. -/
inductive Block.Rejection
  | wrongHeight (expected actual : UInt32)
  | futureTimestamp (timestamp now : Int64)
  | previousHashMismatch
  | insufficientWork (difficulty : Nat)
  | digestMismatch
  | hashMismatch
  | unknownTransactions
  | invalidReward
  deriving Repr, DecidableEq

def Block.Rejection.message : Block.Rejection → String
  | .wrongHeight expected actual =>
    "wrong height: expected " ++ toString expected.toNat ++ ", got " ++ toString actual.toNat
  | .futureTimestamp timestamp now =>
    "timestamp " ++ toString timestamp.toInt ++ " is not before current time " ++ toString now.toInt
  | .previousHashMismatch => "previous hash does not match"
  | .insufficientWork difficulty => "hash does not start with " ++ toString difficulty ++ " zeros"
  | .digestMismatch => "transactions hash does not match"
  | .hashMismatch => "block hash does not match its contents"
  | .unknownTransactions => "block contains transactions that are not pending"
  | .invalidReward => "block must mint exactly " ++ toString rewardValue.toNat ++ " VC"

namespace Acceptance

/-- Link, work, digest and hash: all that needs no clock. -/
def inspectContents (candidate previous : Block) (difficulty : Nat) : Except Block.Rejection Unit :=
  if candidate.previousHash ≠ previous.hash then .error .previousHashMismatch
  else if !meetsDifficulty candidate.hash difficulty then .error (.insufficientWork difficulty)
  else if candidate.computedDigest ≠ candidate.digest then .error .digestMismatch
  else if candidate.computedHash ≠ candidate.hash then .error .hashMismatch
  else .ok ()

/-- A block must be older than the clock says, and sound in its contents. -/
def inspectBase (candidate previous : Block) (difficulty : Nat) (now : Int64) :
    Except Block.Rejection Unit :=
  if now ≤ candidate.timestamp then .error (.futureTimestamp candidate.timestamp now)
  else inspectContents candidate previous difficulty

/-- A mined block carries one reward of the fixed value. -/
def hasReward (b : Block) : Bool := b.reward.any (·.amount == rewardValue)

/-- Each transaction is pending, and each pending one backs one transaction at most. -/
def backedBy (ts pool : List Transaction) : Bool := ((Stock.ofList pool).takeAll? ts).isSome

/-- All signatures of a block check out. -/
def allSigned (b : Block) : Bool := b.transactions.all (·.isSigned)

/-- Some transaction is carried twice by these blocks. -/
def hasRepeats (blocks : List Block) : Bool :=
  !decide ((blocks.flatMap (·.transactions)).map Transaction.identity).Nodup

end Acceptance

end WorkLedger
