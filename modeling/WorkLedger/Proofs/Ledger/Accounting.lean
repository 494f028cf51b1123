import WorkLedger.Proofs.Ledger.Run
import WorkLedger.Proofs.Rules.Backing

/-! Accounting of transactions. Each transaction that was let in is in the pool or in one block,
once. Nothing else looks for repeats when a block comes: the pool has none, a block takes each
pending transaction at most once, and taking it clears its place. -/

namespace WorkLedger.Ledger

open Transaction (identity)

/-- All transactions of the ledger, mined before pending. -/
def holdings (l : Ledger) : List Transaction := history l.chain ++ l.pool

/-- No transaction is held twice, under whatever keys. -/
def Unrepeated (l : Ledger) : Prop := (l.holdings.map identity).Nodup

/-- The ledger holds what was let in, by identity, and holds it once. -/
structure Accounted (l : Ledger) (log : List Transaction) : Prop where
  perm : (l.holdings.map identity).Perm (log.map identity)
  unrepeated : l.Unrepeated

variable {l : Ledger} {log : List Transaction} {t : Transaction} {b : Block}

theorem Unrepeated.pool_nodup (h : l.Unrepeated) : (l.pool.map identity).Nodup := by
  rw [Unrepeated, holdings, List.map_append] at h
  exact h.sublist (List.sublist_append_right _ _)

theorem holdings_enqueue (l : Ledger) (t : Transaction) :
    (l.enqueue t).holdings = l.holdings ++ [t] := by
  rw [holdings, holdings, List.append_assoc]
  rfl

/-- A transaction that is not known is not held, under any key. -/
theorem not_mem_holdings (h : Admission.isKnown t l.chain l.pool = false) :
    t.identity ∉ l.holdings.map identity := by
  obtain ⟨hp, hc⟩ := Bool.or_eq_false_iff.mp h
  rw [holdings, List.map_append, List.mem_append, ← Transaction.occursIn_iff,
    ← Transaction.occursIn_iff, hp, hc]
  simp

/-- A block moves pending transactions into the history, and that is all it does to the holdings. -/
theorem holdings_extend (hn : (l.pool.map identity).Nodup)
    (hb : Acceptance.backedBy b.transactions l.pool = true) :
    ((l.extend b).holdings.map identity).Perm (l.holdings.map identity) := by
  have hm := Pool.removeIncluded_perm hn hb
  change ((history (l.chain ++ [b]) ++ l.pool.removeIncluded b).map identity).Perm
    ((history l.chain ++ l.pool).map identity)
  rw [history_append l.chain_ne_nil, List.append_assoc, List.map_append, List.map_append,
    List.map_append]
  exact hm.append_left _

theorem Unrepeated.enqueue (h : l.Unrepeated) (ha : Admission.Admissible t l.chain l.pool) :
    (l.enqueue t).Unrepeated := by
  rw [Unrepeated, holdings_enqueue, List.map_append, List.map_singleton,
    (List.perm_append_singleton _ _).nodup_iff]
  exact List.nodup_cons.mpr ⟨not_mem_holdings ha.unknown, h⟩

theorem Unrepeated.extend (h : l.Unrepeated)
    (hb : Acceptance.backedBy b.transactions l.pool = true) : (l.extend b).Unrepeated :=
  (holdings_extend h.pool_nodup hb).nodup_iff.mpr h

theorem Accounted.enqueue (h : l.Accounted log) (ha : Admission.Admissible t l.chain l.pool) :
    (l.enqueue t).Accounted (log ++ [t]) := by
  refine ⟨?_, h.unrepeated.enqueue ha⟩
  rw [holdings_enqueue, List.map_append, List.map_append]
  exact h.perm.append_right _

theorem Accounted.extend (h : l.Accounted log)
    (hb : Acceptance.backedBy b.transactions l.pool = true) : (l.extend b).Accounted log :=
  ⟨(holdings_extend h.unrepeated.pool_nodup hb).trans h.perm, h.unrepeated.extend hb⟩

theorem accounted_withDifficulty (difficulty : Nat) : (withDifficulty difficulty).Accounted [] :=
  ⟨.refl _, List.nodup_nil⟩

theorem accounted_run (difficulty : Nat) (calls : List Call) :
    ((withDifficulty difficulty).run calls).Accounted
      ((withDifficulty difficulty).admitted calls) :=
  run_invariant (P := Accounted) (fun _ _ _ h ha => h.enqueue ha)
    (fun _ _ _ _ h _ _ ha => h.extend ha.backed) []
    (accounted_withDifficulty difficulty) (throughout_true _ calls)

/-- The first block of a run carries nothing. -/
theorem flatMap_transactions_run (difficulty : Nat) (calls : List Call) :
    ((withDifficulty difficulty).run calls).chain.flatMap (·.transactions) =
      history ((withDifficulty difficulty).run calls).chain := by
  rw [chain_run difficulty calls, List.flatMap_cons]
  rfl

/-- After any run, the transactions of all blocks and of the pool are, by identity, those that were
let in, each of them once: none is lost, mined twice, both mined and pending, or made up by a block.
-/
theorem blocks_and_pool_perm_admitted (difficulty : Nat) (calls : List Call) :
    let l := (withDifficulty difficulty).run calls
    let log := (withDifficulty difficulty).admitted calls
    ((l.chain.flatMap (·.transactions) ++ l.pool).map identity).Perm (log.map identity) ∧
      (log.map identity).Nodup := by
  intro l log
  have h : l.Accounted log := accounted_run difficulty calls
  rw [flatMap_transactions_run difficulty calls]
  exact ⟨h.perm, h.perm.nodup_iff.mp h.unrepeated⟩

end WorkLedger.Ledger
