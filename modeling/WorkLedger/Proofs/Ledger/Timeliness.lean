import WorkLedger.Proofs.Commitment.Evaluation
import WorkLedger.Proofs.Ledger.Accounting

/-! Times. A new transaction is compared with one other: the last of its sender that is pending or,
if none is, the last one on the chain. Pending ones stay in the order of their times, whatever
blocks take out of the pool, so a new one is never older than any of them. On the chain it is the
blocks that choose the order, and one that takes a later payment before an earlier one lets times
be asked for that have long passed. -/

namespace WorkLedger

open Transaction (identity)

/-- The times of each sender never go back along the list. -/
def InOrder (ts : List Transaction) : Prop :=
  ts.Pairwise fun t u => t.sender = u.sender → t.timestamp ≤ u.timestamp

/-- The last transaction of a sender. -/
def lastOf (sender : String) (ts : List Transaction) : Option Transaction :=
  (ts.filter (·.sender == sender)).getLast?

variable {ts us : List Transaction} {t u : Transaction} {sender : String}

theorem lastOf_append (sender : String) (ts us : List Transaction) :
    lastOf sender (ts ++ us) = (lastOf sender us).or (lastOf sender ts) := by
  simp only [lastOf, List.filter_append, List.getLast?_append]

theorem lastOf_concat (sender : String) (ts : List Transaction) (t : Transaction) :
    lastOf sender (ts ++ [t]) = if t.sender = sender then some t else lastOf sender ts := by
  rw [lastOf_append]
  by_cases h : t.sender = sender
  · simp [lastOf, h]
  · simp [lastOf, h]

theorem lastOf_eq_none_iff : lastOf sender ts = none ↔ ∀ t ∈ ts, t.sender ≠ sender := by
  simp [lastOf]

theorem mem_of_lastOf (h : lastOf sender ts = some t) : t ∈ ts ∧ t.sender = sender := by
  simpa using List.mem_filter.mp (List.mem_of_getLast? h)

theorem inOrder_nil : InOrder [] := List.Pairwise.nil

namespace InOrder

/-- In a list in order, nobody has a transaction that is later than their last one. -/
theorem le_lastOf (h : InOrder ts) (ht : t ∈ ts) (hu : lastOf t.sender ts = some u) :
    t.timestamp ≤ u.timestamp := by
  obtain ⟨before, hb⟩ := List.getLast?_eq_some_iff.mp hu
  have hs : u.sender = t.sender := (mem_of_lastOf hu).2
  have hm : t ∈ before ++ [u] := by
    rw [← hb]
    simpa using ht
  have hp : InOrder (before ++ [u]) := by
    rw [← hb]
    exact h.sublist List.filter_sublist
  rcases List.mem_append.mp hm with hm | hm
  · exact (List.pairwise_append.mp hp).2.2 t hm u List.mem_cons_self hs.symm
  · rw [List.mem_singleton.mp hm]
    exact Int64.le_refl _

theorem exists_lastOf (h : InOrder ts) (ht : t ∈ ts) :
    ∃ u, lastOf t.sender ts = some u ∧ t.timestamp ≤ u.timestamp := by
  cases hl : lastOf t.sender ts with
  | none => exact absurd rfl (lastOf_eq_none_iff.mp hl t ht)
  | some u => exact ⟨u, rfl, h.le_lastOf ht hl⟩

theorem append_singleton (h : InOrder ts)
    (ht : ∀ u ∈ ts, u.sender = t.sender → u.timestamp ≤ t.timestamp) : InOrder (ts ++ [t]) := by
  refine List.pairwise_append.mpr ⟨h, List.pairwise_singleton _ _, fun u hu v hv => ?_⟩
  rw [List.mem_singleton.mp hv]
  exact ht u hu

end InOrder

namespace Admission

variable {chain : List Block} {pool : List Transaction}

/-- What is pending lies behind what is on the chain, so the transaction that is looked at is the
last one of both. -/
theorem latestTime_eq (sender : String) (chain : List Block) (pool : List Transaction) :
    latestTime sender chain pool =
      ((lastOf sender (history chain ++ pool)).map (·.timestamp)).getD 0 := by
  rw [lastOf_append, latestTime, lastOf, lastOf]
  cases ((pool.filter (·.sender == sender)).getLast?).or
    ((history chain).filter (·.sender == sender)).getLast? with
  | none => rfl
  | some t => rfl

theorem latestTime_of_lastOf (h : lastOf sender (history chain ++ pool) = some t) :
    latestTime sender chain pool = t.timestamp := by
  rw [latestTime_eq, h]
  rfl

/-- Of a pool in order, no transaction is later than the time that is looked at. -/
theorem le_latestTime (chain : List Block) (h : InOrder pool) (ht : t ∈ pool) :
    t.timestamp ≤ latestTime t.sender chain pool := by
  obtain ⟨u, hu, hle⟩ := h.exists_lastOf ht
  rw [latestTime_of_lastOf (t := u) (by rw [lastOf_append, hu]; rfl)]
  exact hle

theorem Admissible.latestTime_le (h : Admissible t chain pool) :
    latestTime t.sender chain pool ≤ t.timestamp := of_decide_eq_true h.timely

end Admission

namespace Ledger

open Admission (Admissible latestTime isTimely)

variable {l : Ledger} {b : Block}

/-! ## What is pending -/

theorem inOrder_pool_enqueue (h : InOrder l.pool) (ha : Admissible t l.chain l.pool) :
    InOrder (l.enqueue t).pool := by
  refine h.append_singleton fun u hu hs => ?_
  have hle := Admission.le_latestTime l.chain h hu
  rw [hs] at hle
  exact Int64.le_trans hle ha.latestTime_le

theorem inOrder_pool_extend (h : InOrder l.pool) (b : Block) : InOrder (l.extend b).pool :=
  h.sublist List.filter_sublist

theorem inOrder_pool_run (difficulty : Nat) (calls : List Call) :
    InOrder ((withDifficulty difficulty).run calls).pool :=
  run_keeps (P := fun l => InOrder l.pool) (fun _ _ h ha => inOrder_pool_enqueue h ha)
    (fun _ b _ h _ => inOrder_pool_extend h b) inOrder_nil calls

/-! ## What is on the chain -/

/-- The check of times lets nothing pass that is older than anything the ledger holds of the same
sender. -/
def Current (l : Ledger) : Prop :=
  ∀ t, isTimely t l.chain l.pool = true →
    ∀ u ∈ l.holdings, u.sender = t.sender → u.timestamp ≤ t.timestamp

/-- The candidate that is accepted carries nothing later than what its sender's next transaction is
compared with from then on: the last one that it leaves pending or, if it leaves none, the last one
that it carries. -/
def KeepsLatest (l : Ledger) (c : Call) : Prop :=
  l.takes c = true → ∀ t ∈ c.carried,
    t.timestamp ≤ latestTime t.sender (l.perform c).chain (l.perform c).pool

/-- It is enough that nothing the ledger holds is later than the time that is looked at. -/
theorem current_iff :
    l.Current ↔ ∀ u ∈ l.holdings, u.timestamp ≤ latestTime u.sender l.chain l.pool := by
  constructor
  · intro h u hu
    -- The time that is looked at passes the check itself.
    exact h { u with timestamp := latestTime u.sender l.chain l.pool }
      (decide_eq_true (Int64.le_refl _)) u hu rfl
  · intro h t ht u hu hs
    have hle := h u hu
    rw [hs] at hle
    exact Int64.le_trans hle (of_decide_eq_true ht)

theorem latestTime_enqueue (l : Ledger) (t : Transaction) (sender : String) :
    latestTime sender (l.enqueue t).chain (l.enqueue t).pool =
      if t.sender = sender then t.timestamp else latestTime sender l.chain l.pool := by
  have hh : history (l.enqueue t).chain ++ (l.enqueue t).pool = l.holdings ++ [t] :=
    holdings_enqueue l t
  rw [Admission.latestTime_eq, hh, lastOf_concat, Admission.latestTime_eq, holdings]
  split <;> rfl

theorem Current.enqueue (h : l.Current) (ha : Admissible t l.chain l.pool) :
    (l.enqueue t).Current := by
  refine current_iff.mpr fun u hu => ?_
  rw [latestTime_enqueue]
  rw [holdings_enqueue, List.mem_append, List.mem_singleton] at hu
  rcases hu with hu | rfl
  · have hle := current_iff.mp h u hu
    split
    · rename_i hs
      rw [← hs] at hle
      exact Int64.le_trans hle ha.latestTime_le
    · exact hle
  · rw [if_pos rfl]
    exact Int64.le_refl _

/-- Of a sender that has nothing pending, a block carries nothing. -/
theorem latestTime_extend_of_eq_none (hb : Acceptance.backedBy b.transactions l.pool = true)
    (hp : lastOf sender l.pool = none) :
    latestTime sender (l.extend b).chain (l.extend b).pool = latestTime sender l.chain l.pool := by
  have hnone := lastOf_eq_none_iff.mp hp
  have hcarried : lastOf sender b.transactions = none := by
    refine lastOf_eq_none_iff.mpr fun t ht hs => ?_
    obtain ⟨u, hu, hi⟩ := Acceptance.exists_pending hb ht
    have hus : u.sender = t.sender := congrArg Transfer.sender (Transaction.Identity.mk.inj hi).1
    exact hnone u hu (hus.trans hs)
  have hleft : lastOf sender (l.extend b).pool = none :=
    lastOf_eq_none_iff.mpr fun t ht => hnone t (Pool.mem_of_mem_removeIncluded ht)
  have hh : history (l.extend b).chain = history l.chain ++ b.transactions :=
    history_append l.chain_ne_nil b
  rw [Admission.latestTime_eq, hh, lastOf_append, lastOf_append, hleft, hcarried,
    Admission.latestTime_eq, lastOf_append, hp]
  rfl

/-- What was pending is carried by the block or left by it, and is not too late if nothing that is
carried is. -/
theorem le_latestTime_extend (ho : InOrder l.pool)
    (hk : ∀ t ∈ b.transactions,
      t.timestamp ≤ latestTime t.sender (l.extend b).chain (l.extend b).pool)
    (ht : t ∈ l.pool) :
    t.timestamp ≤ latestTime t.sender (l.extend b).chain (l.extend b).pool := by
  cases hc : t.occursIn b.transactions with
  | true =>
    obtain ⟨u, hu, hi⟩ := List.mem_map.mp (Transaction.occursIn_iff.mp hc)
    obtain ⟨htransfer, htime, _⟩ := Transaction.Identity.mk.inj hi
    have hs : u.sender = t.sender := congrArg Transfer.sender htransfer
    have hle := hk u hu
    rwa [htime, hs] at hle
  | false =>
    refine Admission.le_latestTime (l.extend b).chain (inOrder_pool_extend ho b)
      (List.mem_filter.mpr ⟨ht, ?_⟩)
    rw [hc]
    rfl

/-- A block moves what it carries and nothing else, so it is enough to look at that. -/
theorem current_extend_iff (h : l.Current) (ho : InOrder l.pool)
    (hb : Acceptance.backedBy b.transactions l.pool = true) :
    (l.extend b).Current ↔ ∀ t ∈ b.transactions,
      t.timestamp ≤ latestTime t.sender (l.extend b).chain (l.extend b).pool := by
  have hh : history (l.extend b).chain = history l.chain ++ b.transactions :=
    history_append l.chain_ne_nil b
  rw [current_iff]
  constructor
  · intro hc t ht
    refine hc t (List.mem_append_left _ ?_)
    rw [hh]
    exact List.mem_append_right _ ht
  · intro hk u hu
    rw [holdings, hh, List.append_assoc, List.mem_append, List.mem_append] at hu
    rcases hu with hu | hu | hu
    · have hle := current_iff.mp h u (List.mem_append_left _ hu)
      cases hp : lastOf u.sender l.pool with
      | some v =>
        -- What was on the chain is no later than the last pending one of its sender.
        obtain ⟨hv, hs⟩ := mem_of_lastOf hp
        rw [Admission.latestTime_of_lastOf (t := v) (by rw [lastOf_append, hp]; rfl)] at hle
        rw [← hs]
        exact Int64.le_trans hle (le_latestTime_extend ho hk hv)
      | none =>
        rw [latestTime_extend_of_eq_none hb hp]
        exact hle
    · exact hk u hu
    · exact Admission.le_latestTime (l.extend b).chain (inOrder_pool_extend ho b) hu

theorem current_withDifficulty (difficulty : Nat) : (withDifficulty difficulty).Current :=
  fun _ _ _ hu => absurd hu List.not_mem_nil

/-- A ledger stays current through a run exactly if each block that it accepts leaves it so. -/
theorem throughout_current_iff (h : l.Current) (ho : InOrder l.pool) (calls : List Call) :
    l.Throughout (fun l c => (l.perform c).Current) calls ↔ l.Throughout KeepsLatest calls := by
  induction calls generalizing l with
  | nil => exact Iff.rfl
  | cons c rest ih =>
    rw [Throughout, Throughout]
    rcases l.perform_cases c with ⟨ht, hp⟩ | ⟨t, rfl, ht, ha, hp⟩ | ⟨b, now, rfl, ht, ha, hp⟩
    · have hk : l.KeepsLatest c := fun hy => by rw [ht] at hy; cases hy
      rw [hp, ih h ho]
      exact ⟨fun hr => ⟨hk, hr.2⟩, fun hr => ⟨h, hr.2⟩⟩
    · have hk : l.KeepsLatest (.submit t) := fun _ u hu => absurd hu List.not_mem_nil
      have hc : (l.enqueue t).Current := h.enqueue ha
      rw [hp, ih hc (inOrder_pool_enqueue ho ha)]
      exact ⟨fun hr => ⟨hk, hr.2⟩, fun hr => ⟨hc, hr.2⟩⟩
    · have hk : l.KeepsLatest (.append b now) ↔ (l.extend b).Current := by
        rw [current_extend_iff h ho ha.backed, KeepsLatest, hp]
        exact ⟨fun hr => hr ht, fun hr _ => hr⟩
      rw [hp, hk]
      exact and_congr_right fun hc => ih hc (inOrder_pool_extend ho b)

theorem current_run {difficulty : Nat} {calls : List Call}
    (hk : (withDifficulty difficulty).Throughout KeepsLatest calls) :
    ((withDifficulty difficulty).run calls).Current := by
  have h : InOrder (withDifficulty difficulty).pool ∧ (withDifficulty difficulty).Current :=
    ⟨inOrder_nil, current_withDifficulty difficulty⟩
  refine (run_invariant (P := fun l _ => InOrder l.pool ∧ l.Current) ?_ ?_ [] h hk).2
  · intro l _ t ⟨ho, hc⟩ ha
    exact ⟨inOrder_pool_enqueue ho ha, hc.enqueue ha⟩
  · intro l _ b now ⟨ho, hc⟩ hk ht ha
    refine ⟨inOrder_pool_extend ho b, (current_extend_iff hc ho ha.backed).mpr ?_⟩
    rw [KeepsLatest, (perform_append ha).2] at hk
    exact hk ht

/-- After any run, a transaction that is let in is not older than any pending one of its sender. It
is not older than any on the chain either, as long as no accepted block has carried something later
than what it left to be compared with; and this condition is just what keeps the check of times from
letting older ones pass, in each state of the run. -/
theorem timestamp_le_of_submit (difficulty : Nat) (calls : List Call) :
    let start := withDifficulty difficulty
    let l := start.run calls
    (∀ t l', l.submit t = .ok l' →
      ∀ u ∈ l.pool, u.sender = t.sender → u.timestamp ≤ t.timestamp) ∧
    (start.Throughout KeepsLatest calls → ∀ t l', l.submit t = .ok l' →
      ∀ u ∈ l.holdings, u.sender = t.sender → u.timestamp ≤ t.timestamp) ∧
    (start.Throughout (fun l c => (l.perform c).Current) calls ↔
      start.Throughout KeepsLatest calls) := by
  intro start l
  refine ⟨fun t l' h u hu hs => ?_, fun hk t l' h u hu hs => ?_, ?_⟩
  · have ha := (submit_eq_ok_iff.mp h).1
    have hle := Admission.le_latestTime l.chain (inOrder_pool_run difficulty calls) hu
    rw [hs] at hle
    exact Int64.le_trans hle ha.latestTime_le
  · have ha := (submit_eq_ok_iff.mp h).1
    exact current_run hk t ha.timely u hu hs
  · exact throughout_current_iff (current_withDifficulty difficulty) inOrder_nil calls

/-! ## A payment that is overtaken -/

namespace Overtaking

def owner : String := "1P5k8358PNGjeGZaiuidGCBTBp74DdQgHt"

def ownersKey : Bytes :=
  [4, 73, 9, 33, 245, 106, 185, 136, 23, 116, 253, 132, 77, 19, 23, 42, 147, 164, 230, 164, 132,
  229, 187, 17, 60, 167, 64, 225, 175, 6, 121, 216, 94, 14, 134, 161, 49, 197, 81, 191, 240, 149,
  249, 160, 216, 115, 17, 189, 35, 96, 198, 140, 0, 170, 77, 187, 102, 30, 236, 35, 17, 214, 100,
  27, 75]

/-- Mints the coins that are paid. -/
def funding : Block where
  height := 1
  timestamp := 1500000001000
  digest := "6ca1aa5edf136278a39a5593cdae47d776a5b8d489f23de573eb7c90f6c7f9a0"
  nonce := 95
  previousHash := "0"
  hash := "00d41930190a9699a3317a2fcf3df20012690217ba0725e7990ad3774f841942"
  minerName := "Miner 0"
  reward := some ⟨owner, 100⟩
  transactions := []

def early : Transaction where
  transfer := ⟨owner, "SC", 30⟩
  timestamp := 1500000002000
  signature :=
    [48, 70, 2, 33, 0, 239, 160, 224, 31, 108, 241, 136, 125, 48, 118, 0, 149, 208, 109, 19, 138,
    53, 42, 96, 200, 93, 242, 143, 250, 133, 229, 13, 254, 33, 184, 13, 132, 2, 33, 0, 167, 205,
    92, 199, 190, 251, 198, 93, 224, 75, 221, 198, 199, 62, 181, 251, 138, 67, 123, 153, 125, 184,
    45, 244, 193, 37, 111, 61, 211, 244, 59, 89]
  publicKey := ownersKey

def late : Transaction where
  transfer := ⟨owner, "SC", 20⟩
  timestamp := 1500000004000
  signature :=
    [48, 69, 2, 32, 10, 213, 171, 166, 121, 140, 106, 102, 144, 134, 31, 209, 58, 52, 233, 92, 67,
    86, 222, 88, 69, 213, 217, 90, 24, 248, 65, 152, 61, 213, 26, 191, 2, 33, 0, 211, 20, 240, 10,
    161, 170, 166, 74, 163, 36, 86, 58, 198, 28, 5, 152, 55, 105, 6, 143, 129, 233, 206, 198, 65,
    91, 247, 79, 169, 240, 118, 115]
  publicKey := ownersKey

/-- Between the two in time. -/
def stale : Transaction where
  transfer := ⟨owner, "SC", 10⟩
  timestamp := 1500000003000
  signature :=
    [48, 68, 2, 32, 121, 50, 21, 148, 113, 225, 122, 195, 248, 206, 112, 234, 67, 41, 154, 154,
    151, 214, 128, 59, 248, 184, 217, 215, 96, 66, 210, 92, 185, 61, 182, 222, 2, 32, 4, 232, 6,
    82, 154, 52, 39, 54, 75, 14, 134, 66, 186, 174, 178, 156, 38, 15, 69, 77, 70, 41, 139, 64, 8,
    172, 155, 98, 206, 236, 144, 206]
  publicKey := ownersKey

/-- Carries the later payment and leaves the earlier one. -/
def overtaking : Block where
  height := 2
  timestamp := 1500000005000
  digest := "bd4907089429c2df549ceb8aef1f8fe694a00ec55e711d2406235d28ad464113"
  nonce := 9
  previousHash := funding.hash
  hash := "00c1d87c92454d81c1789b71c9cd20767bf1b636e8e5bea5264987439672f8f0"
  minerName := "Miner 1"
  reward := some ⟨"TC", 100⟩
  transactions := [late]

/-- Carries the earlier payment on its own. -/
def settling : Block where
  height := 2
  timestamp := 1500000002500
  digest := "28a1876e1e3d7fc265db59723b316b559ed7a6347ae29fe02f7e3da44fe1086c"
  nonce := 523
  previousHash := funding.hash
  hash := "00a5c63ad65786097e9b31ead2b2074f73869cb94edff86b3f72029bb2cd7082"
  minerName := "Miner 1"
  reward := some ⟨"TC", 100⟩
  transactions := [early]

def waiting : Ledger := ((withDifficulty 2).extend funding).enqueue early

def settled : Ledger := waiting.extend settling

def overtaken : Ledger := (waiting.enqueue late).extend overtaking

theorem fits : Acceptance.Fits funding Block.genesis 2 ∧
    Acceptance.Fits overtaking funding 2 ∧ Acceptance.Fits settling funding 2 := by
  rw [Acceptance.fits_iff, Acceptance.fits_iff, Acceptance.fits_iff]
  decide +kernel

theorem funding_acceptable : (withDifficulty 2).Acceptable funding 1600000000000 where
  next := rfl
  past := by decide
  fits := fits.1
  rewarded := rfl
  backed := rfl

/-- The signatures of the three payments check out. -/
theorem signed : ∀ t ∈ [early, late, stale], t.isSigned = true := by
  simp only [Transaction.isSigned, Signature.verify_eq]
  decide +kernel

theorem early_admissible : Admissible early ((withDifficulty 2).extend funding).chain
    ((withDifficulty 2).extend funding).pool where
  unknown := by decide
  timely := by decide
  positive := by decide
  bounded := by decide
  covered := by decide
  signed := signed _ (by simp)

theorem late_admissible : Admissible late waiting.chain waiting.pool where
  unknown := by decide
  timely := by decide
  positive := by decide
  bounded := by decide
  covered := by decide
  signed := signed _ (by simp)

theorem overtaking_acceptable : (waiting.enqueue late).Acceptable overtaking 1600000000000 where
  next := rfl
  past := by decide
  fits := fits.2.1
  rewarded := rfl
  backed := by decide

theorem settling_acceptable : waiting.Acceptable settling 1600000000000 where
  next := rfl
  past := by decide
  fits := fits.2.2
  rewarded := rfl
  backed := by decide

theorem stale_admissible : Admissible stale overtaken.chain overtaken.pool where
  unknown := by decide
  timely := by decide
  positive := by decide
  bounded := by decide
  covered := by decide
  signed := signed _ (by simp)

/-- What is pending does not come in the way of what is on the chain. -/
theorem stale_admissible_settled : Admissible stale settled.chain settled.pool where
  unknown := by decide
  timely := by decide
  positive := by decide
  bounded := by decide
  covered := by decide
  signed := signed _ (by simp)

theorem late_admissible_settled :
    Admissible late (settled.enqueue stale).chain (settled.enqueue stale).pool where
  unknown := by decide
  timely := by decide
  positive := by decide
  bounded := by decide
  covered := by decide
  signed := signed _ (by simp)

def calls : List Call := [.append funding 1600000000000, .submit early]

/-- The earlier payment is mined before the next one comes. -/
def callsInOrder : List Call := calls ++ [.append settling 1600000000000, .submit stale]

theorem run_calls : (withDifficulty 2).run calls = waiting := by
  rw [calls, run, List.foldl_cons, (perform_append funding_acceptable).2, List.foldl_cons,
    (perform_submit early_admissible).2, List.foldl_nil, waiting]

theorem run_callsInOrder : (withDifficulty 2).run callsInOrder = settled.enqueue stale := by
  rw [callsInOrder, run_append, run_calls, run, List.foldl_cons,
    (perform_append settling_acceptable).2, List.foldl_cons, ← settled,
    (perform_submit stale_admissible_settled).2, List.foldl_nil]

theorem run_overtaking :
    (withDifficulty 2).run (calls ++ [.submit late, .append overtaking 1600000000000]) =
      overtaken := by
  rw [run_append, run_calls, run, List.foldl_cons, (perform_submit late_admissible).2,
    List.foldl_cons, (perform_append overtaking_acceptable).2, List.foldl_nil, overtaken]

end Overtaking

open Overtaking in
/-- The later payment is mined before the earlier one, and a third is let in that is older than what
the chain has of the same sender. -/
theorem overtaken_stale :
    let l := (withDifficulty 2).run (calls ++ [.submit late, .append overtaking 1600000000000])
    l.submit stale = .ok (l.enqueue stale) ∧ late ∈ history l.chain ∧
      late.sender = stale.sender ∧ stale.timestamp < late.timestamp := by
  rw [run_overtaking]
  exact ⟨submit_eq_ok_iff.mpr ⟨stale_admissible, rfl⟩, List.mem_cons_self, rfl, by decide⟩

open Overtaking in
/-- With the first of three payments mined and the second pending, the third is later than both. -/
theorem timestamp_le_of_submit_late :
    let l := (withDifficulty 2).run callsInOrder
    (withDifficulty 2).Throughout KeepsLatest callsInOrder ∧
      l.submit late = .ok (l.enqueue late) ∧
      (early ∈ history l.chain ∧ early.sender = late.sender ∧ early.timestamp ≤ late.timestamp) ∧
      (stale ∈ l.pool ∧ stale.sender = late.sender ∧ stale.timestamp ≤ late.timestamp) := by
  intro l
  have hl : l = settled.enqueue stale := run_callsInOrder
  have hk : (withDifficulty 2).Throughout KeepsLatest callsInOrder := by
    refine ⟨fun _ t ht => absurd ht List.not_mem_nil, fun _ t ht => absurd ht List.not_mem_nil,
      fun _ t ht => ?_, fun _ t ht => absurd ht List.not_mem_nil, trivial⟩
    rw [(perform_append funding_acceptable).2, (perform_submit early_admissible).2, ← waiting,
      (perform_append settling_acceptable).2]
    cases List.mem_singleton.mp ht
    decide
  have hs : l.submit late = .ok (l.enqueue late) := by
    rw [hl]
    exact submit_eq_ok_iff.mpr ⟨late_admissible_settled, rfl⟩
  have hearly : early ∈ history l.chain := by
    rw [hl]
    exact List.mem_cons_self
  have hstale : stale ∈ l.pool := by
    rw [hl]
    exact List.mem_cons_self
  obtain ⟨hpool, hheld, _⟩ := timestamp_le_of_submit 2 callsInOrder
  exact ⟨hk, hs,
    ⟨hearly, rfl, hheld hk late _ hs early (List.mem_append_left _ hearly) rfl⟩,
    ⟨hstale, rfl, hpool late _ hs stale hstale rfl⟩⟩

end Ledger

end WorkLedger
