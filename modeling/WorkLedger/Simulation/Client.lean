import WorkLedger.Participants
import WorkLedger.Simulation.Shared

/-! Payments in the background: now and then some client that has coins pays somebody else up to a
quarter of them. -/

namespace WorkLedger.Client

/-- A number below a quarter of the balance, and at least one. -/
def amountFor (balance : Int) (draw : Nat) : UInt64 :=
  let quarter := (Int.tdiv balance 4).toNat
  UInt64.ofNat (max 1 (if quarter = 0 then 0 else draw % quarter))

/-- One round. Gives whether a payment was accepted, and the ledger behind it. -/
def tick (ps : Participants) (l : Ledger) (m : Moment) : Except Error (Bool × Ledger) :=
  match m.pick 0 ps.clients with
  | none => .ok (false, l)
  | some sender => do
    let balance ← l.coinsOf sender.address
    if balance ≤ 0 then return (false, l)
    match m.pick 2 (ps.others sender.address) with
    | none => return (false, l)
    | some receiver =>
      sender.wallet.send l receiver.address (amountFor balance (m.draw 1)) m

inductive Stage
  /-- Asleep up to a time (ms). -/
  | resting (wake : Int)
  | failed (error : Error)
  | done

def Stage.start (s : Settings) (m : Moment) : Stage := .resting (m.now.toInt + s.initialDelay.toNat)

/-- What a turn does: nothing before it is time, a round after that. -/
def step (s : Settings) (ps : Participants) (stage : Stage) (shared : Shared) (m : Moment) :
    Stage × Shared :=
  match stage with
  | .resting wake =>
    if shared.stopped then (.done, shared)
    else if m.now.toInt < wake then (.resting wake, shared)
    else match tick ps shared.ledger m with
      | .ok (_, ledger) =>
        (.resting (m.now.toInt + s.delay.toNat), { shared with ledger := ledger })
      | .error e => (.failed e, shared)
  | .failed e => (.done, shared.abort e)
  | .done => (.done, shared)

end WorkLedger.Client
