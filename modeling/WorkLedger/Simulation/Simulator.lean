import WorkLedger.Simulation.Arena
import WorkLedger.Simulation.Report
import WorkLedger.Store

/-! A run from end to end: what was saved is restored, miners and clients work until the target
height is on the chain, and then everything is saved again. A run that ends in an error saves
nothing. -/

namespace WorkLedger

structure Simulator where
  settings : Settings
  ledger : Ledger
  /-- Stays set after a run, so a later run finds its workers stopped. -/
  stopped : Bool

namespace Simulator

def ofLedger (settings : Settings) (ledger : Ledger) : Simulator := ⟨settings, ledger, false⟩

/-- The ledger after a stored chain is restored, and whether it was. -/
def restoreChain (s : Simulator) (store : Store) : Bool × Ledger :=
  match store.loadChain with
  | .ok (some blocks) =>
    (s.ledger.accepts blocks s.settings.strictLoading,
      s.ledger.load blocks s.settings.strictLoading)
  | _ => (false, s.ledger)

/-- Pending transactions spend coins of the stored chain, so they come back only together with it.
-/
def restore (s : Simulator) (store : Store) : Simulator :=
  let (restored, ledger) := s.restoreChain store
  if restored then
    match store.loadPool with
    | .ok pool => { s with ledger := ledger.loadPool pool }
    | .error _ => { s with ledger := ledger }
  else { s with ledger := ledger }

/-- The stored wallets. Where they cannot be read, new ones take their place. -/
def restoreWallets (store : Store) : WalletBook :=
  match store.loadWallets with
  | .ok book => book
  | .error _ => .empty

/-- What is written to save a run, in this order. -/
def saves (s : Simulator) (book : WalletBook) : List Write :=
  [.chain s.ledger.chain, .pool s.ledger.pool, .wallets book]

def save (s : Simulator) (book : WalletBook) (store : Store) : Store :=
  (store.writeAll (s.saves book)).writeDocument s.ledger.chain

/-- How a run ended: its result, and the simulator and the store after it. -/
structure Ending where
  result : Except Error Report
  simulator : Simulator
  store : Store

/-- Runs on settings that are valid. `work` takes an arena to the end of its work. -/
def runValid {μ : Type → Type} [Monad μ] (work : Arena → μ Arena) (s : Simulator) (store : Store)
    (m : Moment) : μ Ending := do
  let s := s.restore store
  let (ps, book) := Participants.ofSettings s.settings (restoreWallets store) m
  let finish (s : Simulator) : Ending :=
    ⟨Report.ofLedger s.ledger ps, s, s.save book store⟩
  if s.settings.chainSize.toNat ≤ s.ledger.size then
    return finish s
  else
    let a ← work (.start s.settings ps s.ledger s.stopped m)
    let s := { s with ledger := a.shared.ledger, stopped := true }
    match a.failure with
    | some e => return ⟨.error e, s, store⟩
    | none => return finish s

def run {μ : Type → Type} [Monad μ] (work : Arena → μ Arena) (s : Simulator) (store : Store)
    (m : Moment) : μ Ending :=
  match s.settings.validate with
  | .error e => return ⟨.error e, s, store⟩
  | .ok () => s.runValid work store m

end Simulator

end WorkLedger
