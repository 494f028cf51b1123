import WorkLedger.Proofs.Ledger.SelfConsistency

/-! The coins of a verified chain, block by block. Every part of a verified chain that starts at its
first block is verified as well, so whatever strict verification says of the whole chain it says at
every height. The sheet that it carries along is never cut off by saturation: it shows exact
balances that come to the rewards paid so far. The balances of an address that are derived from the
chain may saturate, but never below zero. -/

namespace WorkLedger

variable {chain part : List Block} {initial : Nat} {b : Block}

/-! ## Parts of a verified chain -/

theorem verifyChain_of_isPrefix (hp : part <+: chain) (hne : part ≠ [])
    (h : verifyChain chain initial = true) : verifyChain part initial = true := by
  obtain ⟨rest, rfl⟩ := hp
  cases part with
  | nil => exact absurd rfl hne
  | cons genesis blocks =>
    rw [List.cons_append] at h
    obtain ⟨hg, hh, ⟨r, hr⟩, hn⟩ := verifyChain_cons_iff.mp h
    rw [Replay.run_append] at hr
    obtain ⟨m, hm, _⟩ := Option.bind_eq_some_iff.mp hr
    rw [← List.cons_append, List.flatMap_append, List.map_append] at hn
    exact verifyChain_cons_iff.mpr ⟨hg, hh, ⟨m, hm⟩, hn.sublist (List.sublist_append_left _ _)⟩

/-- At every height of a verified chain the coins of every address can be told. They are never more
than the exact balance, and they are the exact balance unless what the address got has saturated. -/
theorem coinsOf_prefix_eq_ok (h : verifyChain chain initial = true) (hp : part <+: chain)
    (address : String) :
    ∃ coins, coinsOf address part [] = .ok coins ∧ 0 ≤ coins ∧
      coins ≤ Balance.exact address part [] ∧
      ((paidTo address (history part) + minted address (mined part) : Nat) ≤ Coins.greatest →
        coins = Balance.exact address part []) := by
  have he : 0 ≤ Balance.exact address part [] := by
    by_cases hne : part = []
    · rw [hne]
      exact Int.le_refl 0
    · exact Balance.exact_nonneg_of_verifyChain (verifyChain_of_isPrefix hp hne h) address
  have hr := Balance.raw_nonneg he
  refine ⟨Balance.raw address part [], ?_, hr, Balance.raw_le_exact he, fun hf => ?_⟩
  · rw [coinsOf, if_neg (Int.not_lt.mpr hr)]
  · exact Balance.raw_eq_exact he hf

open Ledger.KeySwap in
/-- Before the payment is settled, the whole reward is there. -/
theorem coinsOf_prefix_settled :
    verifyChain (settled payment.publicKey) 2 = true ∧
      [Block.genesis, funding] <+: settled payment.publicKey ∧
      coinsOf payment.sender [Block.genesis, funding] [] = .ok 100 := by
  have hv : verifyChain (settled payment.publicKey) 2 = true :=
    verifyChain_settled payment_admissible.signed
  have hp : [Block.genesis, funding] <+: settled payment.publicKey := ⟨_, rfl⟩
  obtain ⟨coins, hc, _, _, he⟩ := coinsOf_prefix_eq_ok hv hp payment.sender
  have hx : Balance.exact payment.sender [Block.genesis, funding] [] = 100 := by
    decide +kernel
  rw [he (by decide +kernel), hx] at hc
  exact ⟨hv, hp, hc⟩

/-! ## Sums that are not cut off -/

namespace Coins

/-- Neither the amount nor the sum with it is cut off. -/
def AddsExactly (balance : Int) (amount : UInt64) : Prop :=
  ofAmount amount = amount.toNat ∧ add balance (ofAmount amount) = balance + amount.toNat

def SubtractsExactly (balance : Int) (amount : UInt64) : Prop :=
  ofAmount amount = amount.toNat ∧ sub balance (ofAmount amount) = balance - amount.toNat

variable {balance : Int} {amount : UInt64}

theorem addsExactly (h : 0 ≤ balance) (hg : balance + amount.toNat ≤ greatest) :
    AddsExactly balance amount := by
  have hl := least_eq
  have ha : ofAmount amount = amount.toNat := ofAmount_of_le (by omega)
  refine ⟨ha, ?_⟩
  rw [ha, add, clamp_of_mem (by omega) hg]

theorem subtractsExactly (h : amount.toNat ≤ balance) (hg : balance ≤ greatest) :
    SubtractsExactly balance amount := by
  have hl := least_eq
  have ha : ofAmount amount = amount.toNat := ofAmount_of_le (by omega)
  refine ⟨ha, ?_⟩
  rw [ha, sub, clamp_of_mem (by omega) (by omega)]

end Coins

namespace BalanceSheet

/-- No amount, sum or difference that comes up in the check of the block is cut off: not what its
senders spend together, not what each transaction credits and debits, not the reward. -/
structure ChecksExactly (sheet : BalanceSheet) (b : Block) : Prop where
  outgoing : ∀ before t after, b.transactions = before ++ t :: after →
    Coins.AddsExactly ((outgoings before).get t.sender) t.amount
  credited : ∀ before t after, b.transactions = before ++ t :: after →
    Coins.AddsExactly ((sheet.transferAll before).get t.receiver) t.amount
  debited : ∀ before t after, b.transactions = before ++ t :: after →
    Coins.SubtractsExactly
      (((sheet.transferAll before).credit t.receiver t.amount).get t.sender) t.amount
  rewarded : ∀ r, b.reward = some r →
    Coins.AddsExactly ((sheet.transferAll b.transactions).get r.miner) r.amount

theorem Shows.checksExactly {sheet : BalanceSheet} {balance : String → Int} {supply : Int}
    (h : sheet.Shows balance supply) (ht : ∀ a, (paidBy a b.transactions : Int) ≤ balance a)
    (hs : 2 * supply ≤ Coins.greatest)
    (hr : ∀ r, b.reward = some r → supply + r.amount.toNat ≤ Coins.greatest) :
    sheet.ChecksExactly b := by
  -- What is left to pay at some point of the block is covered by the sheet at that point.
  have mid : ∀ before t after, b.transactions = before ++ t :: after →
      (sheet.transferAll before).Shows
        (fun a => balance a + paidTo a before - paidBy a before) supply ∧
      (paidBy t.sender before + t.amount.toNat : Int) ≤ balance t.sender := by
    intro before t after hb
    simp only [hb, paidBy_append] at ht
    refine ⟨h.transferAll (fun a => ?_) hs, ?_⟩
    · have hp := ht a
      omega
    · have hp := ht t.sender
      rw [paidBy_cons, if_pos rfl] at hp
      omega
  refine ⟨?_, ?_, ?_, ?_⟩
  · intro before t after hb
    obtain ⟨_, hp⟩ := mid before t after hb
    have hle := h.le_supply t.sender
    rw [get_outgoings, Int.min_eq_right (by omega)]
    exact Coins.addsExactly (by omega) (by omega)
  · intro before t after hb
    obtain ⟨hm, hp⟩ := mid before t after hb
    have hle := h.le_supply t.sender
    have hc := hm.le_supply t.receiver
    rw [hm.get_eq]
    exact Coins.addsExactly (hm.nonneg t.receiver) (by omega)
  · intro before t after hb
    obtain ⟨hm, hp⟩ := mid before t after hb
    have hle := h.le_supply t.sender
    have hd := (hm.credit t.receiver t.amount (by omega)).le_supply t.sender
    rw [(hm.credit t.receiver t.amount (by omega)).get_eq]
    exact Coins.subtractsExactly (by omega) (by omega)
  · intro r hb
    have hm := h.transferAll ht hs
    have hc := hm.le_supply r.miner
    have hg := hr r hb
    rw [hm.get_eq]
    exact Coins.addsExactly (hm.nonneg r.miner) (by omega)

/-! ## The sheet of a verified chain -/

/-- The sheet after these blocks, each of them checked on the sheet before it. -/
def checkAll (sheet : BalanceSheet) (blocks : List Block) : BalanceSheet :=
  blocks.foldl (fun sheet b => (sheet.check b).2) sheet

end BalanceSheet

namespace Replay

variable {r r' : Replay} {blocks : List Block}

theorem Passes.check_eq (h : r.Passes b) : r.sheet.check b = (true, r.sheet.apply b) := by
  simp only [BalanceSheet.check, h.signed, h.covered, h.sound, Bool.not_true, Bool.false_eq_true,
    if_false, Bool.and_self]

theorem sheet_of_run (h : r.run blocks = some r') : r'.sheet = r.sheet.checkAll blocks := by
  induction blocks generalizing r with
  | nil =>
    cases h
    rfl
  | cons b blocks ih =>
    obtain ⟨m, hm, hr⟩ := Option.bind_eq_some_iff.mp h
    obtain ⟨hb, rfl⟩ := step_eq_some_iff.mp hm
    rw [ih hr, BalanceSheet.checkAll, BalanceSheet.checkAll, List.foldl_cons, hb.check_eq]
    rfl

theorem checksExactly (h : r.sheet.ShowsChain r.passed) (hb : r.Passes b) :
    r.sheet.ChecksExactly b := by
  have hz := hb.length_mined_lt
  have hg := supply_bound hz
  refine h.checksExactly (h.paidBy_le hz hb.covered) (by omega) fun reward hr => ?_
  obtain ⟨_, hm, hv⟩ := Acceptance.hasReward_iff.mp hb.rewarded
  rw [hr] at hm
  cases hm
  rw [hv]
  omega

/-- Where a replay stands after these blocks, if it gets past them. -/
theorem state_of_run {genesis : Block} (h : (start genesis initial).run blocks = some r) :
    r.passed = genesis :: blocks ∧ r.sheet = BalanceSheet.empty.checkAll blocks ∧
      r.sheet.ShowsChain (genesis :: blocks) := by
  have h0 : (start genesis initial).sheet.ShowsChain [genesis] := BalanceSheet.shows_empty
  obtain ⟨hs, hp⟩ := showsChain_run h0 (List.cons_ne_nil _ _) h
  rw [hp] at hs
  exact ⟨hp, sheet_of_run h, hs⟩

end Replay

/-- Whatever height of a verified chain the sheet is taken at, it has one entry for an address,
shows the exact balances, none of them negative, and comes to the rewards of the blocks up to there.
The next block passes its check on this sheet, and nothing in that check is cut off. -/
theorem checkAll_exact (h : verifyChain chain initial = true) {i : Nat}
    (hi : i ≤ (mined chain).length) :
    let sheet := BalanceSheet.empty.checkAll ((mined chain).take i)
    (∀ a, sheet.get a = Balance.exact a (chain.take (i + 1)) []) ∧
      (sheet.entries.map Prod.fst).Nodup ∧ (∀ e ∈ sheet.entries, 0 ≤ e.2) ∧
      sheet.total = (rewardValue.toNat * i : Nat) ∧
      ∀ b, (mined chain)[i]? = some b → (sheet.check b).1 = true ∧ sheet.ChecksExactly b := by
  intro sheet
  cases chain with
  | nil => cases h
  | cons genesis rest =>
    obtain ⟨_, _, ⟨r', hr'⟩, _⟩ := verifyChain_cons_iff.mp h
    have hm : mined (genesis :: rest) = rest := rfl
    rw [← List.take_append_drop i rest, Replay.run_append] at hr'
    obtain ⟨r, hr, hafter⟩ := Option.bind_eq_some_iff.mp hr'
    obtain ⟨hp, hc, hs⟩ := Replay.state_of_run hr
    have hsheet : sheet = r.sheet := hc.symm
    have hlen : (mined (genesis :: rest.take i)).length = i := by
      rw [hm] at hi
      simpa [mined] using hi
    rw [hsheet]
    refine ⟨hs.get_eq, hs.distinct, fun e => hs.entry_nonneg, ?_, fun b hb => ?_⟩
    · rw [hs.total_eq, hlen]
    · rw [hm] at hb
      obtain ⟨hlt, rfl⟩ := List.getElem?_eq_some_iff.mp hb
      rw [List.drop_eq_getElem_cons hlt] at hafter
      obtain ⟨m, hstep, _⟩ := Option.bind_eq_some_iff.mp hafter
      obtain ⟨hpass, rfl⟩ := Replay.step_eq_some_iff.mp hstep
      rw [← hp] at hs
      exact ⟨congrArg Prod.fst hpass.check_eq, Replay.checksExactly hs hpass⟩

open Ledger.KeySwap in
/-- On the chain of a payment, the sheet after the first block holds one reward. -/
theorem checkAll_exact_settled :
    verifyChain (settled payment.publicKey) 2 = true ∧
      1 ≤ (mined (settled payment.publicKey)).length ∧
      (BalanceSheet.empty.checkAll [funding]).total = 100 ∧
      (BalanceSheet.empty.checkAll [funding]).ChecksExactly (settling payment.publicKey) := by
  have hv : verifyChain (settled payment.publicKey) 2 = true :=
    verifyChain_settled payment_admissible.signed
  have hl : 1 ≤ (mined (settled payment.publicKey)).length := by decide
  obtain ⟨_, _, _, ht, hb⟩ := checkAll_exact hv hl
  exact ⟨hv, hl, ht, (hb _ rfl).2⟩

end WorkLedger
