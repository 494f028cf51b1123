import WorkLedger.Proofs.Ledger.SelfConsistency

/-! What strict verification accepts, the ledger accepts. The two were written apart: the ledger
counts blocks, holds a difficulty and looks into its pool, a replay counts positions, works its own
difficulty out and looks for repeats. Wherever a replay of the chain ends, it has come to the last
block, the height and the difficulty that the ledger holds, so a block that a replay lets past on
top of the chain is turned down only for its clock or for what is not pending. -/

namespace WorkLedger.Ledger

open Transaction (identity)

/-- The replay knows what the ledger knows, balances apart. -/
structure Matches (l : Ledger) (r : Replay) : Prop where
  passed : r.passed = l.chain
  last : r.last = l.last
  difficulty : r.difficulty = l.difficulty

/-- Whether the chain can be replayed to its end is left open. -/
def Tracked (l : Ledger) : Prop :=
  ∀ r, (Replay.start Block.genesis l.initial.zeros).run (mined l.chain) = some r → l.Matches r

variable {l : Ledger} {b : Block} {now : Int64}

theorem tracked_withDifficulty (difficulty : Nat) : (withDifficulty difficulty).Tracked := by
  intro r hr
  cases hr
  exact ⟨rfl, rfl, Difficulty.ofNat_zeros _⟩

theorem Tracked.enqueue (h : l.Tracked) (t : Transaction) : (l.enqueue t).Tracked := by
  intro r hr
  obtain ⟨hp, hl, hd⟩ := h r hr
  exact ⟨hp, hl, hd⟩

theorem Tracked.extend (h : l.Tracked) (b : Block) : (l.extend b).Tracked := by
  intro r hr
  have hm : mined (l.extend b).chain = mined l.chain ++ [b] := mined_append l.chain_ne_nil [b]
  rw [hm] at hr
  obtain ⟨m, hreached, _, rfl⟩ := Replay.exists_of_run_snoc hr
  obtain ⟨hp, _, hd⟩ := h m hreached
  refine ⟨congrArg (· ++ [b]) hp, (last_extend l b).symm, ?_⟩
  rw [Replay.advance, hp, hd]
  rfl

theorem tracked_run (difficulty : Nat) (calls : List Call) :
    ((withDifficulty difficulty).run calls).Tracked :=
  run_keeps (fun _ t h _ => h.enqueue t) (fun _ b _ h _ => h.extend b)
    (tracked_withDifficulty difficulty) calls

/-- Pending transactions without a repeat back a block, whatever else the pool holds. -/
theorem backedBy_of_nodup {ts : List Transaction} {pool : Pool} (hn : (ts.map identity).Nodup)
    (hp : ∀ t ∈ ts, t.occursIn pool = true) : Acceptance.backedBy ts pool = true := by
  refine Acceptance.backedBy_iff.mpr (List.subperm_of_subset hn ?_)
  intro i hi
  obtain ⟨t, ht, rfl⟩ := List.mem_map.mp hi
  exact Transaction.occursIn_iff.mp (hp t ht)

theorem Tracked.acceptable (h : l.Tracked) (hc : l.chain = Block.genesis :: mined l.chain)
    (hv : verifyChain (l.chain ++ [b]) l.initial.zeros = true)
    (hp : ∀ t ∈ b.transactions, t.occursIn l.pool = true) (hn : b.timestamp < now) :
    l.Acceptable b now := by
  have hd : (((l.chain ++ [b]).flatMap (·.transactions)).map identity).Nodup := by
    rw [hc] at hv ⊢
    exact (verifyChain_cons_iff.mp hv).2.2.2
  rw [hc, List.cons_append] at hv
  obtain ⟨_, _, ⟨r, hr⟩, _⟩ := verifyChain_cons_iff.mp hv
  obtain ⟨m, hm, hpass, _⟩ := Replay.exists_of_run_snoc hr
  obtain ⟨hpassed, hlast, hdifficulty⟩ := h m hm
  refine ⟨?_, hn, ?_, hpass.rewarded, backedBy_of_nodup ?_ hp⟩
  · rw [← hpassed, ← hpass.next, UInt32.ofNat_toNat]
  · rw [← hlast, ← hdifficulty]
    exact hpass.fits
  · rw [List.flatMap_append, List.map_append, List.flatMap_singleton] at hd
    exact hd.sublist (List.sublist_append_right _ _)

/-- After any run: if the chain with one more block on top passes strict verification, and what the
block carries is pending, under whatever keys, then the block is put on top as soon as the clock is
past it. -/
theorem append_eq_ok_of_verifyChain (difficulty : Nat) (calls : List Call) {candidate : Block}
    {now : Int64} :
    let l := (withDifficulty difficulty).run calls
    verifyChain (l.chain ++ [candidate]) l.initial.zeros = true →
      (∀ t ∈ candidate.transactions, t.occursIn l.pool = true) → candidate.timestamp < now →
        l.append candidate now = .ok (l.extend candidate) := by
  intro l hv hp hn
  have ht : l.Tracked := tracked_run difficulty calls
  exact append_eq_ok_iff.mpr ⟨ht.acceptable (chain_run difficulty calls) hv hp hn, rfl⟩

open KeySwap in
/-- A block that settles a pending payment. -/
theorem append_eq_ok_of_verifyChain_settling :
    let l := (withDifficulty 2).run [.append funding 1600000000000, .submit payment]
    verifyChain (l.chain ++ [settling payment.publicKey]) l.initial.zeros = true ∧
      (∀ t ∈ (settling payment.publicKey).transactions, t.occursIn l.pool = true) ∧
      (settling payment.publicKey).timestamp < 1600000000000 ∧
      l.append (settling payment.publicKey) 1600000000000 =
        .ok (l.extend (settling payment.publicKey)) := by
  have h := @append_eq_ok_of_verifyChain 2 [.append funding 1600000000000, .submit payment]
    (settling payment.publicKey) 1600000000000
  simp only [run_pending] at h ⊢
  have hv : verifyChain (settled payment.publicKey) 2 = true :=
    verifyChain_settled payment_admissible.signed
  have hp : ∀ t ∈ (settling payment.publicKey).transactions,
      t.occursIn (funded.enqueue payment).pool = true := by
    decide
  have hn := (settling_acceptable payment.publicKey).past
  exact ⟨hv, hp, hn, h hv hp hn⟩

end WorkLedger.Ledger
