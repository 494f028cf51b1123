import WorkLedger.Participants
import WorkLedger.Simulation.Shared

/-! A miner builds on whatever the ledger looks like, searches and submits. Between any two of these
steps other workers may take theirs, so each step is a turn of its own; a lost race only means to
begin again. -/

namespace WorkLedger

structure Miner where
  id : UInt32
  participant : Participant
  /-- Mining ends at this height. -/
  target : UInt32

namespace Miner

inductive Stage
  /-- About to ask whether to go on. -/
  | deciding
  /-- About to look at the ledger. -/
  | looking
  /-- About to read the clock for the candidate. -/
  | timing (candidate : Candidate)
  /-- About to ask the flag and to try the nonces of one more round. -/
  | searching (candidate : Candidate) (timestamp : Int64)
  | submitting (block : Block)
  /-- About to pay somebody, perhaps, for a block that was accepted. -/
  | paying (height : UInt32)
  | announcing (height : UInt32)
  | failed (error : Error)
  | done

/-- A miner pays after so many blocks … -/
def chanceNumerator : Nat := 3

/-- … out of so many. -/
def chanceDenominator : Nat := 5

def greatestPayment : Nat := 100

/-- Pays somebody else, or nobody. -/
def pay (miner : Miner) (ps : Participants) (l : Ledger) (m : Moment) : Except Error Ledger :=
  if chanceNumerator ≤ m.below 0 chanceDenominator then .ok l
  else
    let amount := UInt64.ofNat (m.below 1 (greatestPayment + 1))
    match m.pick 2 (ps.others miner.participant.address) with
    | none => .ok l
    | some receiver =>
      (miner.participant.wallet.send l receiver.address amount m).map Prod.snd

def step (miner : Miner) (ps : Participants) (stage : Stage) (shared : Shared) (m : Moment) :
    Stage × Shared :=
  match stage with
  | .deciding =>
    if shared.ledger.size < miner.target.toNat ∧ !shared.stopped then (.looking, shared)
    else (.done, shared)
  | .looking =>
    let snapshot := shared.ledger.snapshot
    if miner.target ≤ snapshot.last.height then (.done, shared)
    else
      let name := toString miner.id.toNat
      (.timing (snapshot.candidate name miner.participant.address), shared)
  | .timing candidate =>
    match m.time with
    | .ok timestamp => (.searching candidate timestamp, shared)
    | .error e => (.failed e, shared)
  | .searching candidate timestamp =>
    if shared.stopped then (.done, shared)
    else
      match candidate.firstHit timestamp (candidate.nonces m.chance) Candidate.pollInterval 0 with
      | some block => (.submitting block, shared)
      | none => (.searching candidate timestamp, shared)
  | .submitting block =>
    match shared.ledger.append block m.deadline with
    | .ok ledger => (.paying block.height, { shared with ledger := ledger })
    | .error _ => (.deciding, shared)
  | .paying height =>
    match miner.pay ps shared.ledger m with
    | .ok ledger => (.announcing height, { shared with ledger := ledger })
    | .error e => (.failed e, shared)
  | .announcing height =>
    (.deciding, if height = miner.target then shared.send (.reached height) else shared)
  | .failed e => (.done, shared.abort e)
  | .done => (.done, shared)

/-- The turns of a miner who works alone, a millisecond apart, up to its end or its error. -/
def runAlone (miner : Miner) (ps : Participants) :
    (turns : Nat) → Stage → Shared → Moment → Stage × Shared
  | 0, stage, shared, _ => (stage, shared)
  | turns + 1, stage, shared, m =>
    match stage with
    | .done => (stage, shared)
    | .failed _ => (stage, shared)
    | _ =>
      let (stage, shared) := miner.step ps stage shared m
      miner.runAlone ps turns stage shared m.next

end Miner

end WorkLedger
