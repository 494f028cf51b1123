import WorkLedger.Proofs.Ledger.Timeliness
import WorkLedger.Proofs.Mining.Race

/-! Order. Workers carry whole snapshots of the pool, and snapshots get old. Still each accepted
block takes the front of the pool as it stands: what its worker saw pending was pending behind what
was on the chain then, so either that part of the chain is all there is now, or some of what the
worker saw is on the chain and the block is not backed. So what was admitted is on the chain and in
the pool in the order in which it was admitted, and the times of each sender never go back. -/

namespace WorkLedger

open Transaction (identity)

/-- A block that carries the front of a pool leaves the rest of it. -/
theorem Pool.removeIncluded_append {b : Block} {rest : Pool}
    (hn : ((b.transactions ++ rest).map identity).Nodup) :
    Pool.removeIncluded (b.transactions ++ rest) b = rest := by
  rw [List.map_append] at hn
  have hfront : b.transactions.filter (fun t => !t.occursIn b.transactions) = [] := by
    refine List.filter_eq_nil_iff.mpr fun t ht => ?_
    rw [Transaction.occursIn_iff.mpr (List.mem_map_of_mem ht)]
    exact Bool.false_ne_true
  have hrest : rest.filter (fun t => !t.occursIn b.transactions) = rest := by
    refine List.filter_eq_self.mpr fun t ht => ?_
    cases ho : t.occursIn b.transactions with
    | true =>
      have hm := Transaction.occursIn_iff.mp ho
      exact absurd rfl ((List.nodup_append.mp hn).2.2 _ hm _ (List.mem_map_of_mem ht))
    | false => rfl
  rw [Pool.removeIncluded, List.filter_append, hfront, hrest, List.nil_append]

theorem Ledger.Snapshot.Yields.transactions {snapshot : Ledger.Snapshot} {b : Block}
    (h : snapshot.Yields b) : b.transactions = snapshot.pending := by
  obtain ⟨minerName, address, timestamp, hm⟩ := h
  obtain ⟨nonce, hash, rfl⟩ := hm.eq_block
  rfl

/-- These transactions were admitted one after the other, the first of them right behind a part of
what is on the chain now. -/
def Placed (ts : List Transaction) (chain : List Block) (log : List Transaction) : Prop :=
  ∃ before, before <+: history chain ∧ before ++ ts <+: log

namespace Ledger

variable {l : Ledger} {b : Block}

/-- A backed block whose transactions were admitted in a row carries the front of the pool: nothing
of what it carries can be in the history. -/
theorem isPrefix_pool (hn : l.Unrepeated)
    (hb : Acceptance.backedBy b.transactions l.pool = true)
    (hp : Placed b.transactions l.chain l.holdings) : b.transactions <+: l.pool := by
  obtain ⟨before, ⟨between, hbetween⟩, hs⟩ := hp
  cases hc : b.transactions with
  | nil => exact List.nil_prefix
  | cons t ts =>
    rw [holdings, ← hbetween, List.append_assoc, List.prefix_append_right_inj, hc] at hs
    cases between with
    | nil => exact hs
    | cons u us =>
      -- The first transaction of the block would be mined and pending.
      have ht : t = u := (List.cons_prefix_cons.mp hs).1
      have hm : t.identity ∈ (history l.chain).map identity := by
        rw [← hbetween, ht]
        exact List.mem_map_of_mem (List.mem_append_right _ List.mem_cons_self)
      obtain ⟨v, hv, hi⟩ := Acceptance.exists_pending hb (t := t) (by simp [hc])
      have hv : t.identity ∈ l.pool.map identity := hi ▸ List.mem_map_of_mem hv
      rw [Unrepeated, holdings, List.map_append] at hn
      exact absurd rfl ((List.nodup_append.mp hn).2.2 _ hm _ hv)

/-- A block that carries the front of the pool leaves all transactions in their order. -/
theorem holdings_extend_of_isPrefix (hn : l.Unrepeated) (hp : b.transactions <+: l.pool) :
    (l.extend b).holdings = l.holdings := by
  obtain ⟨rest, hr⟩ := hp
  have hd : ((b.transactions ++ rest).map identity).Nodup := by
    rw [hr]
    exact hn.pool_nodup
  have hh : history (l.extend b).chain = history l.chain ++ b.transactions :=
    history_append l.chain_ne_nil b
  have hl : (l.extend b).pool = rest := by
    change l.pool.removeIncluded b = rest
    rw [← hr, Pool.removeIncluded_append hd]
  rw [holdings, hh, hl, List.append_assoc, hr, holdings]

end Ledger

namespace Workshop

open Ledger (holdings_enqueue)

/-- The transaction that a turn gets admitted. -/
def admits (s : Workshop) : Turn → List Transaction
  | .submit t => if s.ledger.takes (.submit t) then [t] else []
  | _ => []

/-- The transactions that were admitted during a run, in order. -/
def admitted (s : Workshop) : List Turn → List Transaction
  | [] => []
  | turn :: rest => s.admits turn ++ (s.step turn).admitted rest

/-- The ledger holds what was admitted, in order, and each worker saw a part of it. -/
structure Queued (s : Workshop) (log : List Transaction) : Prop where
  holdings : s.ledger.holdings = log
  unrepeated : s.ledger.Unrepeated
  inOrder : InOrder log
  honest : s.Honest
  placed : ∀ worker desk, s.desks worker = some desk →
    Placed desk.snapshot.pending s.ledger.chain log

variable {s : Workshop} {log : List Transaction} {turn : Turn} {turns : List Turn}

theorem queued_opened (difficulty : Nat) : (opened difficulty).Queued [] where
  holdings := rfl
  unrepeated := List.nodup_nil
  inOrder := inOrder_nil
  honest := honest_opened difficulty
  placed := fun _ _ h => by cases h

theorem Queued.place (h : s.Queued log) {worker : Nat} {desk : Desk} (hd : desk.Honest)
    (hp : Placed desk.snapshot.pending s.ledger.chain log) : (s.place worker desk).Queued log where
  holdings := h.holdings
  unrepeated := h.unrepeated
  inOrder := h.inOrder
  honest := h.honest.place hd
  placed := by
    intro other d hother
    by_cases he : other = worker
    · rw [he, place_self] at hother
      cases hother
      exact hp
    · rw [s.place_of_ne _ he] at hother
      exact h.placed other d hother

theorem Queued.enqueue (h : s.Queued log) {t : Transaction}
    (ha : Admission.Admissible t s.ledger.chain s.ledger.pool) :
    Queued { s with ledger := s.ledger.enqueue t } (log ++ [t]) where
  holdings := by rw [holdings_enqueue, h.holdings]
  unrepeated := h.unrepeated.enqueue ha
  inOrder := by
    refine h.inOrder.append_singleton fun u hu hs => ?_
    obtain ⟨v, hv, hle⟩ := h.inOrder.exists_lastOf hu
    rw [hs, ← h.holdings] at hv
    have ht := ha.latestTime_le
    rw [Admission.latestTime_of_lastOf hv] at ht
    exact Int64.le_trans hle ht
  honest := h.honest
  placed := fun worker desk hd => by
    obtain ⟨before, hb, hp⟩ := h.placed worker desk hd
    exact ⟨before, hb, hp.trans (List.prefix_append _ _)⟩

theorem Queued.extend (h : s.Queued log) {b : Block} {now : Int64}
    (ha : s.ledger.Acceptable b now) (hp : Placed b.transactions s.ledger.chain log) :
    Queued { s with ledger := s.ledger.extend b } log where
  holdings := by
    rw [← h.holdings] at hp
    have hf := Ledger.isPrefix_pool h.unrepeated ha.backed hp
    rw [Ledger.holdings_extend_of_isPrefix h.unrepeated hf, h.holdings]
  unrepeated := h.unrepeated.extend ha.backed
  inOrder := h.inOrder
  honest := h.honest
  placed := fun worker desk hd => by
    obtain ⟨before, hb, hp⟩ := h.placed worker desk hd
    have hh : history (s.ledger.extend b).chain = history s.ledger.chain ++ b.transactions :=
      history_append s.ledger.chain_ne_nil b
    rw [Placed, hh]
    exact ⟨before, hb.trans (List.prefix_append _ _), hp⟩

theorem Queued.step (h : s.Queued log) (turn : Turn) :
    (s.step turn).Queued (log ++ s.admits turn) := by
  cases turn with
  | look worker =>
    simp only [admits, List.append_nil]
    refine h.place (fun _ hb => by cases hb) ⟨history s.ledger.chain, List.prefix_rfl, ?_⟩
    rw [← h.holdings]
    exact List.prefix_rfl
  | search worker minerName address timestamp nonces stop rounds =>
    simp only [admits, List.append_nil, Workshop.step]
    cases hd : s.desks worker with
    | none => exact h
    | some desk =>
      refine h.place (Desk.Honest.search _ _ _ _ _ _ _ (h.honest worker desk hd)) ?_
      rw [Desk.snapshot_search]
      exact h.placed worker desk hd
  | handIn worker now =>
    simp only [admits, List.append_nil, Workshop.step, held]
    rcases hd : s.desks worker with _ | ⟨snapshot, _ | block⟩
    · exact h
    · exact h
    · dsimp only [Option.bind_some, call]
      rcases s.ledger.perform_cases (.append block now) with
        ⟨_, hp⟩ | ⟨_, he, _⟩ | ⟨_, _, he, _, ha, hp⟩
      · rw [hp]
        exact h
      · cases he
      · cases he
        rw [hp]
        refine h.extend ha ?_
        rw [(h.honest worker _ hd block rfl).transactions]
        exact h.placed worker _ hd
  | submit t =>
    rw [admits, Workshop.step, call]
    rcases s.ledger.perform_cases (.submit t) with ⟨ht, hp⟩ | ⟨u, he, ht, ha, hp⟩ | ⟨_, _, he, _⟩
    · rw [ht, if_neg Bool.false_ne_true, List.append_nil, hp]
      exact h
    · cases he
      rw [ht, if_pos rfl, hp]
      exact h.enqueue ha
    · cases he

theorem Queued.run (h : s.Queued log) (turns : List Turn) :
    (s.run turns).Queued (log ++ s.admitted turns) := by
  induction turns generalizing s log with
  | nil => rwa [admitted, List.append_nil]
  | cons turn rest ih =>
    rw [admitted, ← List.append_assoc]
    exact ih (h.step turn)

/-- However workers and senders take turns: the transactions of the blocks, one block after the
other, and then those of the pool are the ones that were admitted, in the order in which they were.
The times of each sender never go back along them, and the time that the next transaction of a
sender is compared with is the greatest that the sender has, or zero if there is none. -/
theorem history_append_pool_eq_admitted (difficulty : Nat) (turns : List Turn) :
    let l := ((opened difficulty).run turns).ledger
    let log := (opened difficulty).admitted turns
    history l.chain ++ l.pool = log ∧
    (∀ sender, ((log.filter (·.sender == sender)).map (·.timestamp)).Pairwise (· ≤ ·)) ∧
    ∀ sender, let latest := Admission.latestTime sender l.chain l.pool
      (∀ t ∈ log, t.sender = sender → t.timestamp ≤ latest) ∧
      ((∃ t ∈ log, t.sender = sender ∧ t.timestamp = latest) ∨
        ((∀ t ∈ log, t.sender ≠ sender) ∧ latest = 0)) := by
  intro l log
  have h : ((opened difficulty).run turns).Queued log := (queued_opened difficulty).run turns
  have hl : history l.chain ++ l.pool = log := h.holdings
  refine ⟨hl, fun sender => ?_, fun sender => ?_⟩
  · refine List.pairwise_map.mpr (List.pairwise_filter.mpr (h.inOrder.imp fun hle ht hu => ?_))
    exact hle ((beq_iff_eq.mp ht).trans (beq_iff_eq.mp hu).symm)
  · intro latest
    cases hs : lastOf sender log with
    | some u =>
      have he : latest = u.timestamp := Admission.latestTime_of_lastOf (hl ▸ hs)
      obtain ⟨hm, hu⟩ := mem_of_lastOf hs
      rw [he]
      refine ⟨fun t ht hsender => ?_, .inl ⟨u, hm, hu, rfl⟩⟩
      subst hsender
      exact h.inOrder.le_lastOf ht hs
    | none =>
      have hnone := lastOf_eq_none_iff.mp hs
      have he : latest = 0 := by
        rw [← hl] at hs
        simp only [latest, Admission.latestTime_eq, hs, Option.map_none, Option.getD_none]
      exact ⟨fun t ht hsender => absurd hsender (hnone t ht), .inr ⟨hnone, he⟩⟩

end Workshop

end WorkLedger
