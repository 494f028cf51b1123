import WorkLedger.Transaction

/-! Counts of transactions, kept by identity. Transactions are put in and taken out one at a time;
what was never put in and what is used up can be taken no more. -/

namespace WorkLedger

open Transaction (Identity)

/-- Of the entries of one identity the one in front counts. -/
structure Stock where
  entries : List (Identity × Nat)
  deriving Repr, DecidableEq

namespace Stock

def empty : Stock := ⟨[]⟩

def count? (stock : Stock) (i : Identity) : Option Nat := stock.entries.lookup i

/-- How often the transaction can still be taken. -/
def left (stock : Stock) (i : Identity) : Nat := (stock.count? i).getD 0

def set (stock : Stock) (i : Identity) (n : Nat) : Stock := ⟨(i, n) :: stock.entries⟩

def put (stock : Stock) (t : Transaction) : Stock :=
  stock.set t.identity (stock.left t.identity + 1)

def ofList (ts : List Transaction) : Stock := ts.foldl put empty

/-- The stock without the transaction, if one is left of it. -/
def take? (stock : Stock) (t : Transaction) : Option Stock :=
  match stock.count? t.identity with
  | some (n + 1) => some (stock.set t.identity n)
  | _ => none

/-- Takes the transactions one by one, and stops at the first that is missing. -/
def takeAll? (stock : Stock) : List Transaction → Option Stock
  | [] => some stock
  | t :: rest => (stock.take? t).bind fun stock => stock.takeAll? rest

end Stock

end WorkLedger
