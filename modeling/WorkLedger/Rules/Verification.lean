import WorkLedger.BalanceSheet
import WorkLedger.Difficulty
import WorkLedger.Rules.Acceptance

/-! Verification of a whole chain that is not taken on trust. The blocks are replayed one by one,
with the difficulty and the balances that the blocks before them lead to. -/

namespace WorkLedger

/-- Applies a block to the balances before it. Signatures come first, and a block that fails them
leaves the balances alone; any other block is applied, whether it was covered or not. -/
def BalanceSheet.check (sheet : BalanceSheet) (b : Block) : Bool × BalanceSheet :=
  if !Acceptance.allSigned b then (false, sheet)
  else
    let after := sheet.apply b
    (sheet.covers b && after.noneNegative, after)

/-- What a replay knows after some blocks. -/
structure Replay where
  /-- The blocks so far, the first one included. -/
  passed : List Block
  last : Block
  difficulty : Difficulty
  sheet : BalanceSheet

namespace Replay

def start (genesis : Block) (initial : Nat) : Replay :=
  ⟨[genesis], genesis, .ofNat initial, .empty⟩

/-- The replay after one more block, if the block keeps every rule. -/
def step (r : Replay) (b : Block) : Option Replay :=
  let (sound, sheet) := r.sheet.check b
  if b.height.toNat = r.passed.length ∧
      (Acceptance.inspectContents b r.last r.difficulty.zeros).isOk ∧
      Acceptance.hasReward b ∧ sound then
    let passed := r.passed ++ [b]
    some ⟨passed, b, r.difficulty.adjust passed, sheet⟩
  else none

def run (r : Replay) : List Block → Option Replay
  | [] => some r
  | b :: rest => (r.step b).bind fun r => r.run rest

end Replay

/-- Every rule holds for every block of the chain, from the given difficulty on. -/
def verifyChain (chain : List Block) (initial : Nat) : Bool :=
  match chain with
  | [] => false
  | genesis :: rest =>
    genesis.isGenesis && genesis.hash == Block.genesis.hash &&
      ((Replay.start genesis initial).run rest).isSome && !Acceptance.hasRepeats chain

end WorkLedger
