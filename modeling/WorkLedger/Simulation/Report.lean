import WorkLedger.Participants

/-! What a finished run tells: the height, the difficulty, what is pending and who has what. -/

namespace WorkLedger

structure Report where
  height : Nat
  difficulty : Nat
  pending : Nat
  /-- Names, addresses and balances. -/
  balances : List (String × String × Int)
  deriving Repr, DecidableEq

namespace Report

def balanceOf (l : Ledger) (p : Participant) : Except Error (String × String × Int) := do
  let balance ← l.coinsOf p.address
  return (p.name, p.address, balance)

def ofLedger (l : Ledger) (ps : Participants) : Except Error Report := do
  let balances ← ps.all.mapM (balanceOf l)
  return ⟨l.size, l.difficulty.zeros, l.pool.length, balances⟩

/-- The report as it is shown to a reader, without a line break at the end. -/
def text (r : Report) : String :=
  "Chain height: " ++ toString r.height ++ "\nDifficulty: " ++ toString r.difficulty ++
    "\nPending transactions: " ++ toString r.pending ++
    String.join (r.balances.map fun (name, address, balance) =>
      "\n" ++ name ++ " (" ++ address ++ "): " ++ toString balance)

end Report

end WorkLedger
