import WorkLedger.Simulation.Client
import WorkLedger.Simulation.Miner

/-! A run between its start and its end: who works on what, and what they share. A schedule names
the worker of each turn, and every schedule is a run. The coordinator stops everybody at the first
event, or when nobody is left, and reads the remaining events once all have ended. -/

namespace WorkLedger

inductive Worker
  | miner (place : Nat)
  | clients
  | coordinator
  deriving Repr, DecidableEq

structure Arena where
  settings : Settings
  participants : Participants
  shared : Shared
  miners : List (Miner × Miner.Stage)
  /-- None if there are no clients. -/
  clients : Option Client.Stage

namespace Arena

/-- Everybody at the beginning of their work. -/
def start (s : Settings) (ps : Participants) (ledger : Ledger) (stopped : Bool) (m : Moment) :
    Arena where
  settings := s
  participants := ps
  shared := ⟨ledger, stopped, []⟩
  miners := ps.miners.zipIdx.map fun (p, i) => (⟨UInt32.ofNat i, p, s.chainSize⟩, .deciding)
  clients := if ps.clients.isEmpty then none else some (.start s m)

/-- All workers have ended. -/
def ended (a : Arena) : Bool :=
  (a.miners.all fun w => w.2 matches .done) && (a.clients.all fun stage => stage matches .done)

def turn (a : Arena) (w : Worker) (m : Moment) : Arena :=
  match w with
  | .miner place =>
    match a.miners[place]? with
    | none => a
    | some (miner, stage) =>
      let (stage, shared) := miner.step a.participants stage a.shared m
      { a with shared := shared, miners := a.miners.set place (miner, stage) }
  | .clients =>
    match a.clients with
    | none => a
    | some stage =>
      let (stage, shared) := Client.step a.settings a.participants stage a.shared m
      { a with shared := shared, clients := some stage }
  | .coordinator =>
    if a.shared.events.isEmpty && !a.ended then a
    else { a with shared := { a.shared with stopped := true } }

/-- Turns in the order of a schedule. -/
def run (a : Arena) (schedule : List (Worker × Moment)) : Arena :=
  schedule.foldl (fun a (w, m) => a.turn w m) a

def workers (a : Arena) : List Worker :=
  .coordinator :: .clients :: (List.range a.miners.length).map .miner

/-- Whose turn it is when all take turns. -/
def workerAt (a : Arena) (i : Nat) : Worker := (a.workers[i % a.workers.length]?).getD .coordinator

/-- Each worker in turn, a millisecond apart, until all have ended and the coordinator knows. -/
def rotate (m : Moment) : (turns : Nat) → Arena → Arena
  | 0, a => a
  | turns + 1, a =>
    if a.ended && a.shared.stopped then a
    else rotate m.next turns (a.turn (a.workerAt m.chance.turn) m)

/-- Takes the first event, and after it all that came while the others ended. -/
def drain : List Event → Option Error
  | [] => none
  | first :: rest => rest.foldl (fun error e => error.or e.error?) first.error?

/-- The error that ends the run, if there is one. -/
def failure (a : Arena) : Option Error := drain a.shared.events

end Arena

end WorkLedger
