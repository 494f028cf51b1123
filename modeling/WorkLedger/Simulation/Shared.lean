import WorkLedger.Ledger

/-! What the workers of a run share: the ledger, the flag that ends the run, and the events they
send to the coordinator. -/

namespace WorkLedger

inductive Event
  /-- The target height is on the chain. -/
  | reached (height : UInt32)
  /-- A worker ended in an error. -/
  | fatal (error : Error)
  deriving Repr, DecidableEq

def Event.error? : Event → Option Error
  | .reached _ => none
  | .fatal error => some error

structure Shared where
  ledger : Ledger
  stopped : Bool
  /-- Events in the order they were sent. -/
  events : List Event

namespace Shared

def send (s : Shared) (e : Event) : Shared := { s with events := s.events ++ [e] }

/-- Stops everybody, and tells why. -/
def abort (s : Shared) (e : Error) : Shared := { s with stopped := true }.send (.fatal e)

end Shared

end WorkLedger
