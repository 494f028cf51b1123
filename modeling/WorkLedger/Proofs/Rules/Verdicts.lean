import WorkLedger.Ledger

/-! What a good verdict says. Each rule is a chain of checks; when none of them speaks up, all of
them hold, and here they are by name. Later proofs take a verdict apart through these statements and
do not look at the chain of checks again. -/

namespace WorkLedger

/-- One link of such a chain: it lets pass whatever does not meet its fault. -/
theorem ite_error_eq_ok_iff {ε α : Type} {fault : Prop} [Decidable fault] {e : ε}
    {rest : Except ε α} {a : α} :
    (if fault then .error e else rest) = Except.ok a ↔ ¬ fault ∧ rest = .ok a := by
  by_cases h : fault
  · rw [if_pos h]
    exact ⟨fun he => (nomatch he), fun hr => absurd h hr.1⟩
  · rw [if_neg h]
    exact ⟨fun hr => ⟨h, hr⟩, fun hr => hr.2⟩

/-- Two steps of which the second needs what the first gave. -/
theorem exists_of_bind_eq_ok {ε α β : Type} {x : Except ε α} {f : α → Except ε β} {b : β}
    (h : x >>= f = .ok b) : ∃ a, x = .ok a ∧ f a = .ok b := by
  cases x with
  | error e => cases h
  | ok a => exact ⟨a, rfl, h⟩

namespace Admission

variable {t : Transaction} {chain : List Block} {pool : List Transaction}

/-- What lets a transaction into the pool. -/
structure Admissible (t : Transaction) (chain : List Block) (pool : List Transaction) : Prop where
  unknown : isKnown t chain pool = false
  timely : isTimely t chain pool = true
  positive : t.amount ≠ 0
  bounded : (t.amount.toNat : Int) ≤ Coins.greatest
  covered : (t.amount.toNat : Int) ≤ Balance.raw t.sender chain pool
  signed : t.isSigned = true

theorem fundsFault_eq_none_iff : fundsFault t chain pool = none ↔
    t.amount ≠ 0 ∧ (t.amount.toNat : Int) ≤ Coins.greatest ∧
      (t.amount.toNat : Int) ≤ Balance.raw t.sender chain pool := by
  unfold fundsFault
  dsimp only
  by_cases ha : t.amount = 0 ∨ Coins.greatest < t.amount.toNat
  · rw [if_pos ha]
    refine ⟨fun h => (nomatch h), fun ⟨hz, hg, _⟩ => ?_⟩
    rcases ha with ha | ha
    · exact absurd ha hz
    · exact absurd ha (Int.not_lt.mpr hg)
  · obtain ⟨hz, hg⟩ := not_or.mp ha
    rw [if_neg ha, ite_eq_right_iff]
    refine ⟨fun h => ⟨hz, Int.not_lt.mp hg, Int.not_lt.mp fun hc => nomatch h hc⟩, ?_⟩
    exact fun h hc => absurd hc (Int.not_lt.mpr h.2.2)

theorem verdict_eq_ok_iff : verdict t chain pool = .ok () ↔ Admissible t chain pool := by
  rw [verdict, ite_error_eq_ok_iff, ite_error_eq_ok_iff]
  cases hf : fundsFault t chain pool with
  | some rejection =>
    refine ⟨fun h => (nomatch h.2.2), fun h => ?_⟩
    rw [fundsFault_eq_none_iff.mpr ⟨h.positive, h.bounded, h.covered⟩] at hf
    cases hf
  | none =>
    obtain ⟨hz, hg, hc⟩ := fundsFault_eq_none_iff.mp hf
    rw [Bool.not_eq_true', Bool.not_eq_false, Bool.not_eq_true]
    cases hs : t.isSigned with
    | false =>
      refine ⟨fun h => (nomatch h.2.2), fun h => ?_⟩
      rw [h.signed] at hs
      cases hs
    | true =>
      exact ⟨fun ⟨hk, ht, _⟩ => ⟨hk, ht, hz, hg, hc, hs⟩, fun h => ⟨h.unknown, h.timely, rfl⟩⟩

end Admission

namespace Acceptance

variable {candidate previous : Block} {difficulty : Nat} {now : Int64}

/-- What makes a block fit on the one before it, whatever the clock says. -/
structure Fits (candidate previous : Block) (difficulty : Nat) : Prop where
  linked : candidate.previousHash = previous.hash
  worked : meetsDifficulty candidate.hash difficulty = true
  digested : candidate.computedDigest = candidate.digest
  hashed : candidate.computedHash = candidate.hash

theorem inspectContents_eq_ok_iff :
    inspectContents candidate previous difficulty = .ok () ↔
      Fits candidate previous difficulty := by
  rw [inspectContents, ite_error_eq_ok_iff, ite_error_eq_ok_iff, ite_error_eq_ok_iff,
    ite_error_eq_ok_iff, Decidable.not_not, Decidable.not_not, Decidable.not_not,
    Bool.not_eq_true', Bool.not_eq_false]
  exact ⟨fun ⟨hl, hw, hd, hh, _⟩ => ⟨hl, hw, hd, hh⟩,
    fun h => ⟨h.linked, h.worked, h.digested, h.hashed, rfl⟩⟩

theorem inspectBase_eq_ok_iff : inspectBase candidate previous difficulty now = .ok () ↔
    candidate.timestamp < now ∧ Fits candidate previous difficulty := by
  rw [inspectBase, ite_error_eq_ok_iff, Int64.not_le, inspectContents_eq_ok_iff]

end Acceptance

namespace Ledger

variable {l l' : Ledger} {t : Transaction} {candidate : Block} {now : Int64}

/-- What lets a candidate onto the chain of a ledger. -/
structure Acceptable (l : Ledger) (candidate : Block) (now : Int64) : Prop where
  next : candidate.height = UInt32.ofNat l.chain.length
  past : candidate.timestamp < now
  fits : Acceptance.Fits candidate l.last l.difficulty.zeros
  rewarded : Acceptance.hasReward candidate = true
  backed : Acceptance.backedBy candidate.transactions l.pool = true

/-- What is old enough stays old enough. -/
theorem Acceptable.later {now' : Int64} (h : l.Acceptable candidate now) (hle : now ≤ now') :
    l.Acceptable candidate now' := { h with past := Int64.lt_of_lt_of_le h.past hle }

theorem inspect_eq_ok_iff : l.inspect candidate now = .ok () ↔ l.Acceptable candidate now := by
  rw [inspect, ite_error_eq_ok_iff, Decidable.not_not]
  cases hb : Acceptance.inspectBase candidate l.last l.difficulty.zeros now with
  | error rejection =>
    refine ⟨fun h => (nomatch h.2), fun h => ?_⟩
    rw [Acceptance.inspectBase_eq_ok_iff.mpr ⟨h.past, h.fits⟩] at hb
    cases hb
  | ok _ =>
    obtain ⟨hp, hf⟩ := Acceptance.inspectBase_eq_ok_iff.mp hb
    dsimp only
    rw [ite_error_eq_ok_iff, ite_error_eq_ok_iff, Bool.not_eq_true', Bool.not_eq_true',
      Bool.not_eq_false, Bool.not_eq_false]
    exact ⟨fun ⟨hn, hr, hk, _⟩ => ⟨hn, hp, hf, hr, hk⟩,
      fun h => ⟨h.next, h.rewarded, h.backed, rfl⟩⟩

/-- The ledger with one more pending transaction. -/
def enqueue (l : Ledger) (t : Transaction) : Ledger := { l with pool := l.pool ++ [t] }

theorem submit_eq_ok_iff :
    l.submit t = .ok l' ↔ Admission.Admissible t l.chain l.pool ∧ l' = l.enqueue t := by
  rw [← Admission.verdict_eq_ok_iff, submit, Pool.submit]
  cases Admission.verdict t l.chain l.pool with
  | error rejection => simp [Except.map]
  | ok _ => simp [Except.map, enqueue, eq_comm]

theorem append_eq_ok_iff :
    l.append candidate now = .ok l' ↔ l.Acceptable candidate now ∧ l' = l.extend candidate := by
  rw [← inspect_eq_ok_iff, append]
  cases l.inspect candidate now with
  | error rejection => simp [Except.map]
  | ok _ => simp [Except.map, eq_comm]

theorem append_of_height_ne (h : candidate.height ≠ UInt32.ofNat l.chain.length) :
    l.append candidate now =
      .error (.wrongHeight (UInt32.ofNat l.chain.length) candidate.height) := by
  rw [append, inspect, if_pos h]
  rfl

theorem append_of_now_le (h : candidate.height = UInt32.ofNat l.chain.length)
    (hn : now ≤ candidate.timestamp) :
    l.append candidate now = .error (.futureTimestamp candidate.timestamp now) := by
  rw [append, inspect, if_neg (not_not_intro h), Acceptance.inspectBase, if_pos hn]
  rfl

end Ledger

end WorkLedger
