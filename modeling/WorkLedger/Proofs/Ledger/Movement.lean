import WorkLedger.Proofs.Balance.Running
import WorkLedger.Proofs.Ledger.Authenticity
import WorkLedger.Proofs.Ledger.Solvency
import WorkLedger.Proofs.Rules.Replay

/-! Movements of coins. A transaction is taken off its sender when it is let in, and is paid to its
receiver when a block carries it; the block does not take it off again. While all that was moved and
minted fits into the greatest number, nothing is cut off, and the coins that are told before and
after a step differ by just what the step moves. -/

namespace WorkLedger

theorem turnover_append (bs cs : List Block) :
    turnover (bs ++ cs) = turnover bs + turnover cs := by
  rw [turnover, List.map_append, List.sum_append, turnover, turnover]

namespace Ledger

variable {l : Ledger} {t : Transaction} {b : Block} {address : String}

/-- All amounts and rewards on the chain and in the pool. -/
def turnover (l : Ledger) : Nat := WorkLedger.turnover (mined l.chain) + volume l.pool

/-- Where nothing on the chain is cut off, the coins of an address are what it exactly has. -/
theorem coinsOf_eq_exact (hs : l.Solvent)
    (hf : (WorkLedger.turnover (mined l.chain) : Int) ≤ Coins.greatest) (address : String) :
    l.coinsOf address = .ok (l.exact address) := by
  have hgot : paidTo address (history l.chain) + minted address (mined l.chain) ≤
      WorkLedger.turnover (mined l.chain) := paidTo_add_minted_le_turnover _
  have he : Balance.raw address l.chain l.pool = l.exact address :=
    Balance.raw_eq_exact (hs address) (by omega)
  rw [coinsOf, WorkLedger.coinsOf, he, if_neg (Int.not_lt.mpr (hs address))]

/-- A transaction that is let in is taken off its sender, and nobody else. -/
theorem coinsOf_enqueue (hs : l.Solvent) (ha : Admission.Admissible t l.chain l.pool)
    (hf : (l.turnover : Int) ≤ Coins.greatest) (address : String) :
    ∃ coins, l.coinsOf address = .ok coins ∧ (l.enqueue t).coinsOf address =
      .ok (coins - (if t.sender = address then t.amount.toNat else 0 : Nat)) := by
  have hc : (WorkLedger.turnover (mined l.chain) : Int) ≤ Coins.greatest := by
    unfold turnover at hf
    omega
  refine ⟨l.exact address, coinsOf_eq_exact hs hc address, ?_⟩
  rw [coinsOf_eq_exact (hs.enqueue ha) hc, exact_enqueue]

/-- A block pays its receivers and its miner, and takes nothing off anybody. -/
theorem coinsOf_extend (hs : l.Solvent) (hn : l.Unrepeated)
    (hb : Acceptance.backedBy b.transactions l.pool = true)
    (hf : ((l.extend b).turnover : Int) ≤ Coins.greatest) (address : String) :
    ∃ coins, l.coinsOf address = .ok coins ∧ (l.extend b).coinsOf address =
      .ok (coins + (paidTo address b.transactions + minted address [b] : Nat)) := by
  have hafter : (WorkLedger.turnover (mined (l.extend b).chain) : Int) ≤ Coins.greatest := by
    unfold turnover at hf
    omega
  have hbefore : (WorkLedger.turnover (mined l.chain) : Int) ≤ Coins.greatest := by
    have hm : mined (l.extend b).chain = mined l.chain ++ [b] := mined_append l.chain_ne_nil [b]
    rw [hm, turnover_append] at hafter
    omega
  refine ⟨l.exact address, coinsOf_eq_exact hs hbefore address, ?_⟩
  rw [coinsOf_eq_exact (hs.extend hn.pool_nodup hb) hafter, exact_extend hn.pool_nodup hb]

/-- After any run, as long as all amounts and rewards together fit into the greatest number, those
of the new block included: a transaction that is let in lowers the coins of its sender by its amount
and leaves those of all others alone, and a block that is accepted raises the coins of each address
by what it pays to it, and by the reward if it is the miner's, and lowers nobody's. -/
theorem coinsOf_moves (difficulty : Nat) (calls : List Call) (address : String) :
    let l := (withDifficulty difficulty).run calls
    (∀ t l', l.submit t = .ok l' → (l.turnover : Int) ≤ Coins.greatest →
      ∃ coins : Int, l.coinsOf address = .ok coins ∧ l'.coinsOf address =
        .ok (if t.sender = address then coins - t.amount.toNat else coins)) ∧
    ∀ b now l', l.append b now = .ok l' → (l'.turnover : Int) ≤ Coins.greatest →
      ∃ (miner : String) (coins : Int) (gain : Nat), b.reward = some ⟨miner, rewardValue⟩ ∧
        gain = paidTo address b.transactions + (if miner = address then rewardValue.toNat else 0) ∧
        l.coinsOf address = .ok coins ∧ l'.coinsOf address = .ok (coins + gain) := by
  intro l
  have hs : l.Solvent := solvent_run difficulty calls
  have hn : l.Unrepeated := (accounted_run difficulty calls).unrepeated
  constructor
  · intro t l' ht hf
    obtain ⟨ha, rfl⟩ := submit_eq_ok_iff.mp ht
    obtain ⟨coins, hc, hc'⟩ := coinsOf_enqueue hs ha hf address
    refine ⟨coins, hc, ?_⟩
    rw [hc']
    by_cases hsender : t.sender = address
    · rw [if_pos hsender, if_pos hsender]
    · rw [if_neg hsender, if_neg hsender, Int.natCast_zero, Int.sub_zero]
  · intro b now l' hb hf
    obtain ⟨ha, rfl⟩ := append_eq_ok_iff.mp hb
    obtain ⟨⟨miner, amount⟩, hr, hv⟩ := Acceptance.hasReward_iff.mp ha.rewarded
    obtain rfl : amount = rewardValue := hv
    obtain ⟨coins, hc, hc'⟩ := coinsOf_extend hs hn ha.backed hf address
    rw [minted_singleton hr] at hc'
    exact ⟨miner, coins, _, hr, rfl, hc, hc'⟩

namespace KeySwap

def waiting : Ledger := funded.enqueue payment

def paid : Ledger := waiting.extend (settling payment.publicKey)

end KeySwap

open KeySwap in
/-- The payment is taken off its sender at once, and reaches its receiver with the block. -/
theorem coinsOf_moves_payment :
    funded.submit payment = .ok waiting ∧ (funded.turnover : Int) ≤ Coins.greatest ∧
      waiting.append (settling payment.publicKey) 1600000000000 = .ok paid ∧
      (paid.turnover : Int) ≤ Coins.greatest ∧
      funded.coinsOf payment.sender = .ok 100 ∧ waiting.coinsOf payment.sender = .ok 70 ∧
      waiting.coinsOf payment.receiver = .ok 0 ∧ paid.coinsOf payment.receiver = .ok 30 := by
  have hs : funded.submit payment = .ok waiting := submit_eq_ok_iff.mpr ⟨payment_admissible, rfl⟩
  have ha : waiting.append (settling payment.publicKey) 1600000000000 = .ok paid :=
    append_eq_ok_iff.mpr ⟨settling_acceptable payment.publicKey, rfl⟩
  have hf : (funded.turnover : Int) ≤ Coins.greatest := by decide
  have hp : (paid.turnover : Int) ≤ Coins.greatest := by decide
  have hfunded : (withDifficulty 2).run [.append funding 1600000000000] = funded := by
    rw [run, List.foldl_cons, perform_funding, List.foldl_nil]
  have hsender : funded.coinsOf payment.sender = .ok 100 := by decide
  have hreceiver : waiting.coinsOf payment.receiver = .ok 0 := by decide
  obtain ⟨submitted, -⟩ := coinsOf_moves 2 [.append funding 1600000000000] payment.sender
  obtain ⟨-, appended⟩ :=
    coinsOf_moves 2 [.append funding 1600000000000, .submit payment] payment.receiver
  rw [hfunded] at submitted
  rw [run_pending] at appended
  obtain ⟨coins, hc, hc'⟩ := submitted payment waiting hs hf
  rw [hsender] at hc
  obtain rfl := Except.ok.inj hc
  obtain ⟨miner, coins, gain, hr, rfl, hd, hd'⟩ := appended _ _ paid ha hp
  rw [show funded.enqueue payment = waiting from rfl, hreceiver] at hd
  obtain rfl := Except.ok.inj hd
  obtain rfl : "TC" = miner := congrArg Reward.miner (Option.some.inj hr)
  exact ⟨hs, hf, ha, hp, hsender, hc'.trans (by decide), hreceiver, hd'.trans (by decide)⟩

end Ledger

end WorkLedger
