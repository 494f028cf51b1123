import WorkLedger.Balance
import WorkLedger.Error

/-! Which transactions may wait in the pool. The verdict looks at the chain and the pool it is
given and at nothing else, and names the first fault in a fixed order: known, stale, unfunded,
unsigned. -/

namespace WorkLedger

/-- Why a transaction was turned away. -/
inductive Transaction.Rejection
  | invalidSignature
  | staleTimestamp (timestamp latest : Int64)
  | nonPositiveAmount
  | insufficientFunds (required : UInt64) (available : Int)
  | duplicate
  | poolUnavailable
  deriving Repr, DecidableEq

def Transaction.Rejection.message : Transaction.Rejection → String
  | .invalidSignature => "wrong signature"
  | .staleTimestamp timestamp latest =>
    "wrong time: " ++ toString timestamp.toInt ++
      " is older than the sender's last transaction at " ++ toString latest.toInt
  | .nonPositiveAmount => "transaction value must be positive"
  | .insufficientFunds required available =>
    "bad balance: required " ++ toString required.toNat ++ ", available " ++ toString available
  | .duplicate => "transaction already known"
  | .poolUnavailable => "transaction pool is unavailable"

namespace Admission

/-- The time of the sender's latest transaction: the last one in the pool, else the last one in the
chain, else zero. -/
def latestTime (sender : String) (chain : List Block) (pool : List Transaction) : Int64 :=
  let ofSender (ts : List Transaction) := (ts.filter (·.sender == sender)).getLast?
  match (ofSender pool).or (ofSender (history chain)) with
  | some t => t.timestamp
  | none => 0

/-- A transaction may not be older than its sender's latest one. -/
def isTimely (t : Transaction) (chain : List Block) (pool : List Transaction) : Bool :=
  latestTime t.sender chain pool ≤ t.timestamp

/-- The amount must be positive, and no more than the sender has left. -/
def fundsFault (t : Transaction) (chain : List Block) (pool : List Transaction) :
    Option Transaction.Rejection :=
  if t.amount = 0 ∨ Coins.greatest < t.amount.toNat then some .nonPositiveAmount
  else
    let available := Balance.raw t.sender chain pool
    if available < t.amount.toNat then some (.insufficientFunds t.amount available) else none

/-- In the pool already, or in a block on top of the first. -/
def isKnown (t : Transaction) (chain : List Block) (pool : List Transaction) : Bool :=
  t.occursIn pool || t.occursIn (history chain)

def verdict (t : Transaction) (chain : List Block) (pool : List Transaction) :
    Except Transaction.Rejection Unit :=
  if isKnown t chain pool then .error .duplicate
  else if !isTimely t chain pool then
    .error (.staleTimestamp t.timestamp (latestTime t.sender chain pool))
  else match fundsFault t chain pool with
    | some rejection => .error rejection
    | none => if t.isSigned then .ok () else .error .invalidSignature

end Admission

/-- The balance of an address. A negative one means that an overspend was let in. -/
def coinsOf (address : String) (chain : List Block) (pool : List Transaction) : Except Error Int :=
  let balance := Balance.raw address chain pool
  if balance < 0 then .error (.negativeBalance address balance) else .ok balance

end WorkLedger
