import WorkLedger.Proofs.Rules.Verdicts

/-! What a search finds. However the nonces come and whenever it is told to stop, a block that comes
out of it is the candidate with one nonce and the hash that goes with it, and shows the work. Such a
block fits on the block that the candidate was made on: miner and rules hash the same header. -/

namespace WorkLedger.Candidate

variable {c : Candidate} {timestamp : Int64} {nonces : Nat → UInt64} {b : Block}

/-- The block is the candidate, finished at this time by some nonce that shows the work. -/
def Makes (c : Candidate) (timestamp : Int64) (b : Block) : Prop :=
  ∃ nonce, c.attempt? timestamp nonce = some b

theorem attempt?_eq_some_iff {nonce : UInt64} : c.attempt? timestamp nonce = some b ↔
    meetsDifficulty (c.header timestamp nonce).hash c.difficulty = true ∧
      b = c.block timestamp nonce (c.header timestamp nonce).hash := by
  rw [attempt?, Option.ite_none_right_eq_some, Option.some.injEq, eq_comm (a := b)]

theorem makes_of_firstHit {count first : Nat}
    (h : c.firstHit timestamp nonces count first = some b) : c.Makes timestamp b := by
  induction count generalizing first with
  | zero => cases h
  | succ count ih =>
    rcases Option.or_eq_some_iff.mp h with ha | ⟨_, hr⟩
    · exact ⟨_, ha⟩
    · exact ih hr

theorem makes_of_search {stop : Nat → Bool} {rounds poll : Nat}
    (h : c.search timestamp nonces stop rounds poll = .found b) : c.Makes timestamp b := by
  induction rounds generalizing poll with
  | zero => cases h
  | succ rounds ih =>
    rw [search] at h
    cases hs : stop poll with
    | true =>
      rw [hs, if_pos rfl] at h
      cases h
    | false =>
      rw [hs, if_neg Bool.false_ne_true] at h
      cases hf : c.firstHit timestamp nonces pollInterval (poll * pollInterval) with
      | some block =>
        rw [hf] at h
        cases h
        exact makes_of_firstHit hf
      | none =>
        rw [hf] at h
        exact ih h

/-- A first nonce that hits ends the search at once. -/
theorem search_of_attempt {stop : Nat → Bool} (hs : stop 0 = false)
    (h : c.attempt? timestamp (nonces 0) = some b) (rounds : Nat) :
    c.search timestamp nonces stop (rounds + 1) 0 = .found b := by
  have hf : c.firstHit timestamp nonces pollInterval (0 * pollInterval) = some b :=
    Option.or_eq_some_iff.mpr (.inl h)
  rw [search, hs, if_neg Bool.false_ne_true, hf]

namespace Makes

theorem eq_block (h : c.Makes timestamp b) : ∃ nonce hash, b = c.block timestamp nonce hash := by
  obtain ⟨nonce, h⟩ := h
  exact ⟨nonce, _, (attempt?_eq_some_iff.mp h).2⟩

/-- The rules rebuild from the block the header that was hashed to find it. -/
theorem fits {previous : Block} {ts : List Transaction} {minerName : String} {reward : Reward}
    {difficulty : Nat} (h : (on previous ts minerName reward difficulty).Makes timestamp b) :
    Acceptance.Fits b previous difficulty := by
  obtain ⟨nonce, h⟩ := h
  obtain ⟨hw, rfl⟩ := attempt?_eq_some_iff.mp h
  exact ⟨rfl, hw, rfl, rfl⟩

end Makes

/-- Each block that fits comes from an attempt: the one with its own nonce, at its own time. -/
theorem attempt?_of_fits {previous : Block} {difficulty : Nat} {reward : Reward}
    (h : Acceptance.Fits b previous difficulty) (hn : b.height = previous.height + 1)
    (hr : b.reward = some reward) :
    (on previous b.transactions b.minerName reward difficulty).attempt? b.timestamp b.nonce =
      some b := by
  have hh : ((on previous b.transactions b.minerName reward difficulty).header b.timestamp
      b.nonce).hash = b.hash := by
    rw [← h.hashed, Block.computedHash, Block.header, ← h.digested, h.linked, hn, hr]
    rfl
  rw [attempt?_eq_some_iff, hh]
  refine ⟨h.worked, ?_⟩
  rw [block, on, ← hn, ← h.linked, ← hr, ← Block.computedDigest, h.digested]

end WorkLedger.Candidate
