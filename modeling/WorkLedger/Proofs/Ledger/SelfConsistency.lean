import WorkLedger.Proofs.Balance.Verified
import WorkLedger.Proofs.Ledger.Authenticity
import WorkLedger.Proofs.Ledger.Solvency

/-! Self-consistency. The rules of the live ledger and the rules of strict verification are
different ones: admission looks at balances and signatures once and appending never looks at them
again, while verification replays them block by block. As long as blocks carry what was pending as
it was, a ledger always stands where a replay of its own chain ends. -/

namespace WorkLedger.Ledger

open Transaction (identity)

/-- A replay of the chain ends here, and knows what the ledger knows. The exact balances of the
chain leave the pool out. -/
structure Replayed (l : Ledger) (r : Replay) : Prop where
  reached : (Replay.start Block.genesis l.initial.zeros).run (mined l.chain) = some r
  passed : r.passed = l.chain
  last : r.last = l.last
  difficulty : r.difficulty = l.difficulty
  shows : r.sheet.Shows (fun a => Balance.exact a l.chain []) (rewardValue.toNat * l.size : Nat)

variable {l : Ledger} {r : Replay} {b : Block} {now : Int64}

/-- What a backed block pays is pending, so the chain alone covers it. -/
theorem paidBy_le_exact (hs : l.Solvent) (hn : (l.pool.map identity).Nodup)
    (hb : Acceptance.backedBy b.transactions l.pool = true) (address : String) :
    (paidBy address b.transactions : Int) ≤ Balance.exact address l.chain [] := by
  -- The pool splits into what the block takes and what it leaves.
  have hp : paidBy address (b.transactions ++ l.pool.removeIncluded b) = paidBy address l.pool := by
    apply paidBy_perm
    rw [List.map_append]
    exact Pool.removeIncluded_perm hn hb
  have he := hs address
  rw [exact, Balance.exact_eq_sub_paidBy] at he
  rw [paidBy_append] at hp
  omega

/-- The size of a ledger counts the blocks on top of the first. -/
theorem length_mined (l : Ledger) : (mined l.chain).length = l.size := List.length_drop

theorem size_lt_of_extend {n : Nat} (h : (l.extend b).size < n) : l.size < n := by
  rw [size_extend] at h
  exact Nat.lt_of_succ_lt h

/-- Until heights run out, the height of the next block is its place. -/
theorem Acceptable.toNat_height (ha : l.Acceptable b now)
    (hz : (l.extend b).size < UInt32.size) : b.height.toNat = l.chain.length := by
  rw [size_extend, ← length_chain] at hz
  rw [ha.next]
  exact UInt32.toNat_ofNat_of_lt hz

namespace Replayed

theorem showsChain (h : l.Replayed r) : r.sheet.ShowsChain l.chain := by
  rw [BalanceSheet.ShowsChain, length_mined]
  exact h.shows

/-- Applying a backed block keeps the sheet exact: the supply is far from the greatest number. -/
theorem shows_apply (h : l.Replayed r) (hz : l.size < UInt32.size)
    (hr : Acceptance.hasReward b = true)
    (hp : ∀ a, (paidBy a b.transactions : Int) ≤ Balance.exact a l.chain []) :
    (r.sheet.apply b).Shows (fun a => Balance.exact a (l.chain ++ [b]) [])
      (rewardValue.toNat * (l.size + 1) : Nat) := by
  rw [← length_mined] at hz ⊢
  have hs := h.showsChain.apply l.chain_ne_nil hz hr hp
  rwa [BalanceSheet.ShowsChain, mined_append l.chain_ne_nil, List.length_append] at hs

theorem passes (h : l.Replayed r) (hz : (l.extend b).size < UInt32.size)
    (hb : Acceptance.allSigned b = true) (ha : l.Acceptable b now)
    (hp : ∀ a, (paidBy a b.transactions : Int) ≤ Balance.exact a l.chain []) : r.Passes b where
  next := by
    rw [h.passed]
    exact ha.toNat_height hz
  fits := by
    rw [h.last, h.difficulty]
    exact ha.fits
  rewarded := ha.rewarded
  signed := hb
  covered := h.shows.covers_eq hp
  sound := (h.shows_apply (size_lt_of_extend hz) ha.rewarded hp).noneNegative_eq

/-- A replay follows the ledger onto a block that it lets past. -/
theorem extend (h : l.Replayed r) (hz : l.size < UInt32.size) (hb : r.Passes b)
    (hp : ∀ a, (paidBy a b.transactions : Int) ≤ Balance.exact a l.chain []) :
    (l.extend b).Replayed (r.advance b) where
  reached := by
    have hm : mined (l.extend b).chain = mined l.chain ++ [b] := mined_append l.chain_ne_nil [b]
    rw [hm]
    exact Replay.run_snoc h.reached hb
  passed := congrArg (· ++ [b]) h.passed
  last := (last_extend l b).symm
  difficulty := by
    rw [Replay.advance, h.passed, h.difficulty]
    rfl
  shows := by
    rw [size_extend]
    exact h.shows_apply hz hb.rewarded hp

end Replayed

/-- What makes the chain of a ledger pass strict verification. Only the last field says so; the
others carry it over the next block. -/
structure Consistent (l : Ledger) : Prop where
  solvent : l.Solvent
  unrepeated : l.Unrepeated
  signed : l.PoolSigned
  replayed : l.size < UInt32.size → ∃ r, l.Replayed r

theorem consistent_withDifficulty (difficulty : Nat) : (withDifficulty difficulty).Consistent where
  solvent := solvent_withDifficulty difficulty
  unrepeated := (accounted_withDifficulty difficulty).unrepeated
  signed := fun _ ht => absurd ht List.not_mem_nil
  replayed := fun _ =>
    ⟨_, rfl, rfl, rfl, Difficulty.ofNat_zeros _, BalanceSheet.shows_empty⟩

theorem Consistent.enqueue (h : l.Consistent) {t : Transaction}
    (ha : Admission.Admissible t l.chain l.pool) : (l.enqueue t).Consistent where
  solvent := h.solvent.enqueue ha
  unrepeated := h.unrepeated.enqueue ha
  signed := h.signed.enqueue ha.signed
  replayed := fun hz =>
    let ⟨r, hr⟩ := h.replayed hz
    ⟨r, hr.reached, hr.passed, hr.last, hr.difficulty, hr.shows⟩

theorem Consistent.extend (h : l.Consistent) (hb : Acceptance.allSigned b = true)
    (ha : l.Acceptable b now) : (l.extend b).Consistent where
  solvent := h.solvent.extend h.unrepeated.pool_nodup ha.backed
  unrepeated := h.unrepeated.extend ha.backed
  signed := h.signed.extend b
  replayed := fun hz => by
    have hl : l.size < UInt32.size := size_lt_of_extend hz
    have hp := paidBy_le_exact h.solvent h.unrepeated.pool_nodup ha.backed
    obtain ⟨r, hr⟩ := h.replayed hl
    exact ⟨_, hr.extend hl (hr.passes hz hb ha hp) hp⟩

theorem consistent_run {difficulty : Nat} {calls : List Call}
    (hk : (withDifficulty difficulty).Throughout KeysVerify calls) :
    ((withDifficulty difficulty).run calls).Consistent :=
  run_invariant (P := fun l _ => l.Consistent) (fun _ _ _ h ha => h.enqueue ha)
    (fun _ _ _ _ h hk ht ha => h.extend ((allSigned_iff_keysVerify ht ha.backed).mpr hk) ha) []
    (consistent_withDifficulty difficulty) hk

/-- Keys are the only thing that strict verification may find wrong with a chain that was built
live. -/
theorem verifyChain_run_iff {difficulty : Nat} {calls : List Call}
    (hz : ((withDifficulty difficulty).run calls).size < UInt32.size) :
    verifyChain ((withDifficulty difficulty).run calls).chain
        ((withDifficulty difficulty).run calls).initial.zeros = true ↔
      (withDifficulty difficulty).Throughout KeysVerify calls := by
  have hl := chain_run difficulty calls
  constructor
  · intro h
    rw [hl] at h
    obtain ⟨_, _, ⟨r, hr⟩, _⟩ := verifyChain_cons_iff.mp h
    exact (allSigned_run_iff difficulty calls).mp (Replay.allSigned_of_run hr)
  · intro hk
    have h := consistent_run hk
    obtain ⟨r, hr⟩ := h.replayed hz
    have hd : ((((withDifficulty difficulty).run calls).chain.flatMap (·.transactions)).map
        identity).Nodup := by
      rw [flatMap_transactions_run difficulty calls]
      exact h.unrepeated.sublist ((List.sublist_append_left _ _).map _)
    rw [hl] at hd ⊢
    exact verifyChain_cons_iff.mpr ⟨rfl, rfl, ⟨r, hr.reached⟩, hd⟩

/-- After any run in which accepted blocks carry what is pending as it is, the chain passes strict
verification from the difficulty that the ledger was made with. -/
theorem verifyChain_run (difficulty : Nat) {calls : List Call}
    (hc : (withDifficulty difficulty).Throughout CopiesPending calls)
    (hz : ((withDifficulty difficulty).run calls).size < UInt32.size) :
    verifyChain ((withDifficulty difficulty).run calls).chain
      ((withDifficulty difficulty).run calls).initial.zeros = true :=
  (verifyChain_run_iff hz).mpr (keysVerify_run hc)

/-- A run of two blocks that settles a payment as it was pending. -/
theorem verifyChain_run_settled :
    (withDifficulty 2).Throughout CopiesPending (KeySwap.calls KeySwap.payment.publicKey) ∧
      ((withDifficulty 2).run (KeySwap.calls KeySwap.payment.publicKey)).size = 2 ∧
      verifyChain ((withDifficulty 2).run (KeySwap.calls KeySwap.payment.publicKey)).chain
        ((withDifficulty 2).run (KeySwap.calls KeySwap.payment.publicKey)).initial.zeros =
          true := by
  have hc : (withDifficulty 2).Throughout CopiesPending
      (KeySwap.calls KeySwap.payment.publicKey) := by
    refine ⟨fun _ t ht => absurd ht List.not_mem_nil, fun _ t ht => absurd ht List.not_mem_nil,
      fun _ t ht => ?_, trivial⟩
    rw [KeySwap.perform_funding, (perform_submit KeySwap.payment_admissible).2]
    exact List.mem_append_right _ ht
  have hs := KeySwap.size_run_calls KeySwap.payment.publicKey
  exact ⟨hc, hs, verifyChain_run 2 hc (by rw [hs]; decide)⟩

/-- What is on the chain after any run was let in, and its signature was checked then, under the key
it had in the pool. Under the keys that the blocks carry, all signatures check out, and the chain
passes strict verification, if and only if each of these keys checks the signature it came with;
copies made of what was pending always do. -/
theorem authentic_iff_keysVerify (difficulty : Nat) (calls : List Call) :
    let start := withDifficulty difficulty
    let l := start.run calls
    (∀ t ∈ history l.chain, ∃ u ∈ start.admitted calls,
      u.identity = t.identity ∧ u.isSigned = true) ∧
    ((∀ b ∈ mined l.chain, Acceptance.allSigned b = true) ↔ start.Throughout KeysVerify calls) ∧
    (l.size < UInt32.size →
      (verifyChain l.chain l.initial.zeros = true ↔ start.Throughout KeysVerify calls)) ∧
    (start.Throughout CopiesPending calls → start.Throughout KeysVerify calls) :=
  ⟨history_admitted difficulty calls, allSigned_run_iff difficulty calls, verifyChain_run_iff,
    keysVerify_run⟩

/-- Under a key that is not even a point of the curve, the payment is on the chain with a signature
that is no good, and the chain does not pass. -/
theorem swapped_key_not_authentic :
    (∃ b ∈ mined ((withDifficulty 2).run (KeySwap.calls [4])).chain,
      Acceptance.allSigned b = false) ∧
    verifyChain ((withDifficulty 2).run (KeySwap.calls [4])).chain
      ((withDifficulty 2).run (KeySwap.calls [4])).initial.zeros = false := by
  have hb : KeySwap.settling [4] ∈ mined ((withDifficulty 2).run (KeySwap.calls [4])).chain := by
    rw [KeySwap.run_calls]
    exact List.mem_cons_of_mem _ List.mem_cons_self
  have hf : Acceptance.allSigned (KeySwap.settling [4]) = false := by decide +kernel
  refine ⟨⟨_, hb, hf⟩, ?_⟩
  rw [← Bool.not_eq_true, verifyChain_run_iff (by rw [KeySwap.size_run_calls]; decide),
    ← allSigned_run_iff]
  intro h
  rw [h _ hb] at hf
  cases hf

/-! ## The chain of a payment -/

namespace KeySwap

def settled (key : Bytes) : List Block := [Block.genesis, funding, settling key]

/-- The payment settles under any key that verifies its signature. -/
theorem verifyChain_settled {key : Bytes}
    (hk : Signature.verify key payment.signature (Bytes.ofText payment.text) = true) :
    verifyChain (settled key) 2 = true := by
  have hs : (withDifficulty 2).Throughout KeysVerify (calls key) := by
    refine ⟨fun _ t ht => absurd ht List.not_mem_nil, fun _ t ht => absurd ht List.not_mem_nil,
      fun _ t ht u hu _ => ?_, trivial⟩
    rw [perform_funding, (perform_submit payment_admissible).2] at hu
    rw [List.mem_singleton.mp ht, List.mem_singleton.mp hu]
    exact hk
  have hv := (verifyChain_run_iff (by rw [size_run_calls]; decide)).mpr hs
  rw [run_calls] at hv
  exact hv

end KeySwap

end WorkLedger.Ledger
