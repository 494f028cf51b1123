import WorkLedger.Balance

/-! A running balance for each address that was ever touched, carried from block to block. -/

namespace WorkLedger

/-- Addresses in the order they first appeared. -/
structure BalanceSheet where
  entries : List (String × Int)
  deriving Repr, DecidableEq

namespace BalanceSheet

def empty : BalanceSheet := ⟨[]⟩

/-- The balance of an address, zero if it was never touched. -/
def get (sheet : BalanceSheet) (address : String) : Int := (sheet.entries.lookup address).getD 0

def updateEntries (address : String) (f : Int → Int) : List (String × Int) → List (String × Int)
  | [] => [(address, f 0)]
  | (a, balance) :: rest =>
    if a = address then (a, f balance) :: rest else (a, balance) :: updateEntries address f rest

def update (sheet : BalanceSheet) (address : String) (f : Int → Int) : BalanceSheet :=
  ⟨updateEntries address f sheet.entries⟩

def credit (sheet : BalanceSheet) (address : String) (amount : UInt64) : BalanceSheet :=
  sheet.update address (Coins.add · (Coins.ofAmount amount))

def debit (sheet : BalanceSheet) (address : String) (amount : UInt64) : BalanceSheet :=
  sheet.update address (Coins.sub · (Coins.ofAmount amount))

/-- The receiver is paid before the sender pays. -/
def transfer (sheet : BalanceSheet) (t : Transaction) : BalanceSheet :=
  (sheet.credit t.receiver t.amount).debit t.sender t.amount

def transferAll (sheet : BalanceSheet) (ts : List Transaction) : BalanceSheet :=
  ts.foldl transfer sheet

def mint (sheet : BalanceSheet) (reward : Reward) : BalanceSheet :=
  sheet.credit reward.miner reward.amount

/-- Everything a block does to balances. -/
def apply (sheet : BalanceSheet) (b : Block) : BalanceSheet :=
  let moved := sheet.transferAll b.transactions
  match b.reward with
  | some reward => moved.mint reward
  | none => moved

/-- What each sender spends in a list of transactions. -/
def outgoings (ts : List Transaction) : BalanceSheet :=
  ts.foldl (fun sheet t => sheet.credit t.sender t.amount) empty

def noneNegative (sheet : BalanceSheet) : Bool := sheet.entries.all fun e => 0 ≤ e.2

/-- No sender of the block spends more than it had before the block. -/
def covers (sheet : BalanceSheet) (b : Block) : Bool :=
  (outgoings b.transactions).entries.all fun e => e.2 ≤ sheet.get e.1

end BalanceSheet

end WorkLedger
