import WorkLedger.Rules.Admission
import WorkLedger.Rules.Verification
import WorkLedger.Work

/-! The ledger: the chain, the transactions waiting for a block, and the difficulty. It grows by
admitting a transaction and by appending a block, and it is replaced as a whole by loading. -/

namespace WorkLedger

/-- Admitted transactions in the order they came. -/
abbrev Pool := List Transaction

namespace Pool

def contains (pool : Pool) (t : Transaction) : Bool := t.occursIn pool

/-- Puts a transaction behind the others, unless the rules turn it away. -/
def submit (pool : Pool) (t : Transaction) (chain : List Block) :
    Except Transaction.Rejection Pool :=
  (Admission.verdict t chain pool).map fun _ => pool ++ [t]

/-- Drops every transaction that the block carries. -/
def removeIncluded (pool : Pool) (b : Block) : Pool :=
  pool.filter fun t => !t.occursIn b.transactions

end Pool

structure Ledger where
  /-- The first block leads and is never removed. -/
  chain : List Block
  pool : Pool
  difficulty : Difficulty
  /-- Where strict verification starts from. -/
  initial : Difficulty
  chain_ne_nil : chain ≠ []

namespace Ledger

/-- A ledger that holds only the first block. -/
def withDifficulty (difficulty : Nat) : Ledger where
  chain := [Block.genesis]
  pool := []
  difficulty := .ofNat difficulty
  initial := .ofNat difficulty
  chain_ne_nil := by simp

def fresh : Ledger := withDifficulty Difficulty.initial.zeros

/-- Number of blocks on top of the first. -/
def size (l : Ledger) : Nat := l.chain.length - 1

def last (l : Ledger) : Block := l.chain.getLast l.chain_ne_nil

def coinsOf (l : Ledger) (address : String) : Except Error Int :=
  WorkLedger.coinsOf address l.chain l.pool

/-- The verdict on a candidate at clock reading `now`. -/
def inspect (l : Ledger) (candidate : Block) (now : Int64) : Except Block.Rejection Unit :=
  let expected := UInt32.ofNat l.chain.length
  if candidate.height ≠ expected then .error (.wrongHeight expected candidate.height)
  else match Acceptance.inspectBase candidate l.last l.difficulty.zeros now with
    | .error rejection => .error rejection
    | .ok () =>
      if !Acceptance.hasReward candidate then .error .invalidReward
      else if !Acceptance.backedBy candidate.transactions l.pool then .error .unknownTransactions
      else .ok ()

/-- The ledger with the block on top: what it carries leaves the pool, and the difficulty moves. -/
def extend (l : Ledger) (b : Block) : Ledger where
  chain := l.chain ++ [b]
  pool := l.pool.removeIncluded b
  difficulty := l.difficulty.adjust (l.chain ++ [b])
  initial := l.initial
  chain_ne_nil := by simp

theorem length_chain (l : Ledger) : l.chain.length = l.size + 1 :=
  (Nat.succ_pred_eq_of_pos (List.length_pos_iff.mpr l.chain_ne_nil)).symm

theorem size_extend (l : Ledger) (b : Block) : (l.extend b).size = l.size + 1 := by
  rw [← length_chain]
  exact congrArg (· - 1) List.length_append

theorem last_extend (l : Ledger) (b : Block) : (l.extend b).last = b := List.getLast_concat

theorem size_congr {l l' : Ledger} (h : l'.chain = l.chain) : l'.size = l.size := by
  rw [size, h, size]

theorem last_congr {l l' : Ledger} (h : l'.chain = l.chain) : l'.last = l.last := by
  simp only [last, h]

def append (l : Ledger) (candidate : Block) (now : Int64) : Except Block.Rejection Ledger :=
  (l.inspect candidate now).map fun _ => l.extend candidate

def submit (l : Ledger) (t : Transaction) : Except Transaction.Rejection Ledger :=
  (l.pool.submit t l.chain).map fun pool => { l with pool := pool }

/-- Whether a stored chain is taken. -/
def accepts (l : Ledger) (blocks : List Block) (strict : Bool) : Bool :=
  !blocks.isEmpty && (!strict || verifyChain blocks l.initial.zeros)

/-- Replaces the chain and replays the difficulty over its times. A chain that is not taken leaves
the first block alone, and an empty pool, because pending coins came from the chain before. -/
def load (l : Ledger) (blocks : List Block) (strict : Bool) : Ledger :=
  if h : l.accepts blocks strict then
    { l with
      chain := blocks
      difficulty := .ofChain blocks
      chain_ne_nil := by
        intro e
        simp [accepts, e] at h }
  else
    { l with
      chain := [Block.genesis]
      pool := []
      difficulty := l.initial
      chain_ne_nil := by simp }

/-- Puts saved transactions back as they are. -/
def loadPool (l : Ledger) (pool : Pool) : Ledger := { l with pool := pool }

/-- What a miner builds on: the last block, all pending transactions and the difficulty. -/
structure Snapshot where
  last : Block
  pending : Pool
  difficulty : Difficulty

def snapshot (l : Ledger) : Snapshot := ⟨l.last, l.pool, l.difficulty⟩

/-- The candidate that a miner with this address builds. -/
def Snapshot.candidate (s : Snapshot) (minerName address : String) : Candidate :=
  Candidate.on s.last s.pending minerName ⟨address, rewardValue⟩ s.difficulty.zeros

end Ledger

end WorkLedger
