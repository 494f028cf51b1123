import WorkLedger.Block

/-! Balances are never stored: they follow from the chain and the pool. The first block of a chain
counts for nothing. Sums are kept between the ends of the signed 64-bit numbers, and an amount above
the greatest of them counts as that. -/

namespace WorkLedger

namespace Coins

def greatest : Int := Int64.maxValue.toInt
def least : Int := Int64.minValue.toInt

/-- The nearest number that can be kept. -/
def clamp (x : Int) : Int := max least (min greatest x)

def add (x y : Int) : Int := clamp (x + y)
def sub (x y : Int) : Int := clamp (x - y)

def ofAmount (amount : UInt64) : Int := min greatest amount.toNat

/-- The running sum, kept in range after each addition. -/
def sum (xs : List Int) : Int := xs.foldl add 0

end Coins

/-- The blocks on top of the first. -/
def mined (chain : List Block) : List Block := chain.drop 1

/-- The transactions of the blocks on top of the first, in order. -/
def history (chain : List Block) : List Transaction := (mined chain).flatMap (·.transactions)

theorem mined_append {chain : List Block} (h : chain ≠ []) (blocks : List Block) :
    mined (chain ++ blocks) = mined chain ++ blocks := by
  cases chain with
  | nil => exact absurd rfl h
  | cons genesis rest => rfl

theorem history_append {chain : List Block} (h : chain ≠ []) (b : Block) :
    history (chain ++ [b]) = history chain ++ b.transactions := by
  rw [history, mined_append h, List.flatMap_append, List.flatMap_singleton, history]

namespace Balance

variable (address : String) (chain : List Block) (pool : List Transaction)

def received : Int :=
  Coins.sum (((history chain).filter (·.receiver == address)).map (Coins.ofAmount ·.amount))

def rewards : Int :=
  Coins.sum ((((mined chain).filterMap (·.reward)).filter (·.miner == address)).map
    (Coins.ofAmount ·.amount))

/-- Pending transactions are spent already, while what they bring is not received yet. -/
def spent : Int :=
  Coins.sum (((history chain ++ pool).filter (·.sender == address)).map (Coins.ofAmount ·.amount))

/-- Received and minted coins less what was spent, negative or not. -/
def raw : Int := Coins.sub (Coins.add (received address chain) (rewards address chain))
  (spent address chain pool)

end Balance

end WorkLedger
