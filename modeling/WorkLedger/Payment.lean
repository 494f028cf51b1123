import WorkLedger.Ledger
import WorkLedger.Moment
import WorkLedger.Wallet

/-! Payments out of a wallet: made and signed at a moment, and handed to a ledger. -/

namespace WorkLedger.Wallet

/-- A transfer from the wallet's own address, signed now. -/
def pay (w : Wallet) (receiver : String) (amount : UInt64) (m : Moment) :
    Except Error Transaction := do
  let time ← m.time
  w.sign ⟨w.address, receiver, amount⟩ time (m.draw 3)

/-- Makes a payment and submits it. The ledger may turn it down, which is no error; a wallet that
cannot sign is, and so is a clock that cannot be read. -/
def send (w : Wallet) (l : Ledger) (receiver : String) (amount : UInt64) (m : Moment) :
    Except Error (Bool × Ledger) := do
  let t ← w.pay receiver amount m
  match l.submit t with
  | .ok l => return (true, l)
  | .error _ => return (false, l)

/-- What the wallet can still spend. -/
def balance (w : Wallet) (l : Ledger) : Except Error Int := l.coinsOf w.address

end WorkLedger.Wallet
