import Mathlib.Data.Nat.Find
import WorkLedger.Proofs.Ledger.Authenticity
import WorkLedger.Proofs.Mining.Search

/-! What a search comes to. Rounds that pass leave one thing behind: no poll so far said to stop,
and no attempt so far was a hit. So the first hit ends the search in its own round, if the poll of
that round and all polls before it said to go on; the first poll that says to stop ends it
otherwise; and it goes on for ever if neither comes. -/

namespace WorkLedger.Candidate

variable {c : Candidate} {timestamp : Int64} {nonces : Nat → UInt64} {stop : Nat → Bool} {b : Block}

/-- The hash that goes with a nonce shows the work. -/
def Hits (c : Candidate) (timestamp : Int64) (nonce : UInt64) : Prop :=
  meetsDifficulty (c.header timestamp nonce).hash c.difficulty = true

/-- The candidate with a nonce and the hash that goes with it. -/
def finish (c : Candidate) (timestamp : Int64) (nonce : UInt64) : Block :=
  c.block timestamp nonce (c.header timestamp nonce).hash

/-- The first attempt that hits, counted from zero. -/
structure FirstHit (c : Candidate) (timestamp : Int64) (nonces : Nat → UInt64) (i : Nat) :
    Prop where
  hits : c.Hits timestamp (nonces i)
  misses : ∀ j < i, ¬ c.Hits timestamp (nonces j)

theorem FirstHit.le (h : c.FirstHit timestamp nonces i) {j : Nat}
    (hj : c.Hits timestamp (nonces j)) : i ≤ j :=
  Nat.not_lt.mp fun hlt => h.misses j hlt hj

theorem FirstHit.eq (h : c.FirstHit timestamp nonces i) (h' : c.FirstHit timestamp nonces j) :
    i = j := Nat.le_antisymm (h.le h'.hits) (h'.le h.hits)

theorem exists_firstHit {j : Nat} (h : c.Hits timestamp (nonces j)) :
    ∃ i, c.FirstHit timestamp nonces i := by
  classical
  have he : ∃ j, c.Hits timestamp (nonces j) := ⟨j, h⟩
  exact ⟨Nat.find he, Nat.find_spec he, fun _ => Nat.find_min he⟩

/-! ## A row of attempts -/

theorem attempt?_of_hits {nonce : UInt64} (h : c.Hits timestamp nonce) :
    c.attempt? timestamp nonce = some (c.finish timestamp nonce) :=
  attempt?_eq_some_iff.mpr ⟨h, rfl⟩

theorem attempt?_of_not_hits {nonce : UInt64} (h : ¬ c.Hits timestamp nonce) :
    c.attempt? timestamp nonce = none := if_neg h

theorem firstHit_of_misses {count first : Nat}
    (h : ∀ j, first ≤ j → j < first + count → ¬ c.Hits timestamp (nonces j)) :
    c.firstHit timestamp nonces count first = none := by
  induction count generalizing first with
  | zero => rfl
  | succ count ih =>
    rw [firstHit, attempt?_of_not_hits (h first (Nat.le_refl _) (by omega)), Option.none_or]
    exact ih fun j hj hlt => h j (by omega) (by omega)

theorem FirstHit.firstHit_eq {i : Nat} (h : c.FirstHit timestamp nonces i) {count first : Nat}
    (hle : first ≤ i) (hlt : i < first + count) :
    c.firstHit timestamp nonces count first = some (c.finish timestamp (nonces i)) := by
  induction count generalizing first with
  | zero => omega
  | succ count ih =>
    rw [firstHit]
    by_cases he : first = i
    · rw [he, attempt?_of_hits h.hits, Option.some_or]
    · rw [attempt?_of_not_hits (h.misses first (by omega)), Option.none_or]
      exact ih (by omega) (by omega)

/-! ## Rounds -/

/-- So many rounds pass: their polls say to go on, and their attempts miss. -/
structure Passes (c : Candidate) (timestamp : Int64) (nonces : Nat → UInt64) (stop : Nat → Bool)
    (rounds : Nat) : Prop where
  polls : ∀ poll < rounds, stop poll = false
  misses : ∀ j < rounds * pollInterval, ¬ c.Hits timestamp (nonces j)

/-- After rounds that pass, the search stands at the poll that comes next. -/
theorem Passes.search_add {rounds : Nat} (h : c.Passes timestamp nonces stop rounds) (more : Nat) :
    c.search timestamp nonces stop (rounds + more) 0 =
      c.search timestamp nonces stop more rounds := by
  induction rounds generalizing more with
  | zero => rw [Nat.zero_add]
  | succ rounds ih =>
    have hle : rounds * pollInterval ≤ (rounds + 1) * pollInterval :=
      Nat.mul_le_mul_right _ (Nat.le_succ rounds)
    have hearlier : c.Passes timestamp nonces stop rounds :=
      ⟨fun poll hp => h.polls poll (Nat.lt_succ_of_lt hp),
        fun j hj => h.misses j (Nat.lt_of_lt_of_le hj hle)⟩
    have hmiss : c.firstHit timestamp nonces pollInterval (rounds * pollInterval) = none :=
      firstHit_of_misses fun j _ hj => h.misses j (by rw [Nat.add_mul, Nat.one_mul]; exact hj)
    rw [Nat.add_assoc, ih hearlier, Nat.add_comm 1 more, search, h.polls rounds (by omega),
      if_neg Bool.false_ne_true, hmiss]

/-- From some number of rounds on, the search has this outcome. -/
def ComesTo (c : Candidate) (timestamp : Int64) (nonces : Nat → UInt64) (stop : Nat → Bool)
    (outcome : Outcome) : Prop :=
  ∃ enough, ∀ rounds, enough ≤ rounds → c.search timestamp nonces stop rounds 0 = outcome

theorem ComesTo.eq {outcome outcome' : Outcome} (h : c.ComesTo timestamp nonces stop outcome)
    (h' : c.ComesTo timestamp nonces stop outcome') : outcome = outcome' := by
  obtain ⟨enough, h⟩ := h
  obtain ⟨enough', h'⟩ := h'
  rw [← h (max enough enough') (Nat.le_max_left ..), h' _ (Nat.le_max_right ..)]

/-- The round after those that pass decides, if one more round is enough. -/
theorem Passes.comesTo {rounds : Nat} (h : c.Passes timestamp nonces stop rounds)
    {outcome : Outcome}
    (hlast : ∀ more, c.search timestamp nonces stop (more + 1) rounds = outcome) :
    c.ComesTo timestamp nonces stop outcome := by
  refine ⟨rounds + 1, fun total ht => ?_⟩
  have hsplit : total = rounds + (total - (rounds + 1) + 1) := by omega
  rw [hsplit, h.search_add, hlast]

theorem FirstHit.comesTo {i : Nat} (h : c.FirstHit timestamp nonces i)
    (hpolls : ∀ poll ≤ i / pollInterval, stop poll = false) :
    c.ComesTo timestamp nonces stop (.found (c.finish timestamp (nonces i))) := by
  have hdiv : i / pollInterval * pollInterval ≤ i := Nat.div_mul_le_self i pollInterval
  have hlt : i < i / pollInterval * pollInterval + pollInterval :=
    Nat.lt_div_mul_add (by decide)
  have hp : c.Passes timestamp nonces stop (i / pollInterval) :=
    ⟨fun poll hpoll => hpolls poll (Nat.le_of_lt hpoll), fun j hj => h.misses j (by omega)⟩
  refine hp.comesTo fun more => ?_
  rw [search, hpolls _ (Nat.le_refl _), if_neg Bool.false_ne_true, h.firstHit_eq hdiv hlt]

/-- A poll that says to stop, in the round of the first hit or before it, leads to a stop. -/
theorem comesTo_stopped {poll : Nat} (hs : stop poll = true)
    (hbefore : ∀ i, c.FirstHit timestamp nonces i → poll ≤ i / pollInterval) :
    ∃ first, c.ComesTo timestamp nonces stop (.stopped first) := by
  have he : ∃ poll, stop poll = true := ⟨poll, hs⟩
  have hfirst : Nat.find he ≤ poll := Nat.find_min' he hs
  have hp : c.Passes timestamp nonces stop (Nat.find he) := by
    refine ⟨fun earlier hlt => Bool.eq_false_iff.mpr (Nat.find_min he hlt), fun j hj hhit => ?_⟩
    obtain ⟨i, hi⟩ := exists_firstHit hhit
    have hround : i / pollInterval ≤ j / pollInterval := Nat.div_le_div_right (hi.le hhit)
    have hj : j / pollInterval < Nat.find he := Nat.div_lt_of_lt_mul (by rwa [Nat.mul_comm])
    exact absurd (hbefore i hi) (by omega)
  refine ⟨Nat.find he, hp.comesTo fun more => ?_⟩
  rw [search, Nat.find_spec he, if_pos rfl]

theorem comesTo_unfinished (hmiss : ∀ i, ¬ c.Hits timestamp (nonces i))
    (hpolls : ∀ poll, stop poll = false) : c.ComesTo timestamp nonces stop .unfinished := by
  refine ⟨0, fun rounds _ => ?_⟩
  have hp : c.Passes timestamp nonces stop rounds := ⟨fun poll _ => hpolls poll, fun j _ => hmiss j⟩
  exact hp.search_add 0

/-- One of the three always happens. -/
theorem outcome_cases (c : Candidate) (timestamp : Int64) (nonces : Nat → UInt64)
    (stop : Nat → Bool) :
    (∃ i, c.FirstHit timestamp nonces i ∧ ∀ poll ≤ i / pollInterval, stop poll = false) ∨
    (∃ poll, stop poll = true ∧ ∀ i, c.FirstHit timestamp nonces i → poll ≤ i / pollInterval) ∨
    ((∀ i, ¬ c.Hits timestamp (nonces i)) ∧ ∀ poll, stop poll = false) := by
  by_cases hhit : ∃ j, c.Hits timestamp (nonces j)
  · obtain ⟨j, hj⟩ := hhit
    obtain ⟨i, hi⟩ := exists_firstHit hj
    by_cases hpolls : ∀ poll ≤ i / pollInterval, stop poll = false
    · exact .inl ⟨i, hi, hpolls⟩
    · simp only [not_forall, Bool.not_eq_false] at hpolls
      obtain ⟨poll, hle, hs⟩ := hpolls
      exact .inr (.inl ⟨poll, hs, fun i' hi' => hi.eq hi' ▸ hle⟩)
  · have hmiss : ∀ i, ¬ c.Hits timestamp (nonces i) := not_exists.mp hhit
    by_cases hs : ∃ poll, stop poll = true
    · obtain ⟨poll, hs⟩ := hs
      exact .inr (.inl ⟨poll, hs, fun i hi => absurd hi.hits (hmiss i)⟩)
    · exact .inr (.inr ⟨hmiss, fun poll => Bool.eq_false_iff.mpr (not_exists.mp hs poll)⟩)

/-- What a search on a block comes to, for any nonces and any answers to its polls. It finds the
block of the first hit, if the polls up to the round of that hit say to go on. It stops if one of
them says so, or any poll at all where no attempt is a hit. It goes on for ever if there is no hit
and nobody stops it. And each block that it finds is one that the rules let follow on that block, by
any clock that has passed its timestamp, and shows the work. -/
theorem search_comesTo (previous : Block) (ts : List Transaction) (minerName : String)
    (reward : Reward) (difficulty : Nat) (timestamp : Int64) (nonces : Nat → UInt64)
    (stop : Nat → Bool) :
    let c := on previous ts minerName reward difficulty
    (∀ b, c.ComesTo timestamp nonces stop (.found b) ↔
      ∃ i, c.FirstHit timestamp nonces i ∧ (∀ poll ≤ i / 4096, stop poll = false) ∧
        b = c.finish timestamp (nonces i)) ∧
    ((∃ poll, c.ComesTo timestamp nonces stop (.stopped poll)) ↔
      ∃ poll, stop poll = true ∧ ∀ i, c.FirstHit timestamp nonces i → poll ≤ i / 4096) ∧
    (c.ComesTo timestamp nonces stop .unfinished ↔
      (∀ i, ¬ c.Hits timestamp (nonces i)) ∧ ∀ poll, stop poll = false) ∧
    ∀ rounds b, c.search timestamp nonces stop rounds 0 = .found b →
      (∀ now, timestamp < now → Acceptance.inspectBase b previous difficulty now = .ok ()) ∧
        b.showsWork difficulty = true := by
  intro c
  have hcases := c.outcome_cases timestamp nonces stop
  refine ⟨fun b => ⟨fun h => ?_, ?_⟩, ⟨fun ⟨poll, h⟩ => ?_, ?_⟩, ⟨fun h => ?_, ?_⟩, ?_⟩
  · rcases hcases with ⟨i, hi, hpolls⟩ | ⟨poll, hs, hbefore⟩ | ⟨hmiss, hpolls⟩
    · cases h.eq (hi.comesTo hpolls)
      exact ⟨i, hi, hpolls, rfl⟩
    · obtain ⟨first, hstopped⟩ := comesTo_stopped hs hbefore
      cases h.eq hstopped
    · cases h.eq (comesTo_unfinished hmiss hpolls)
  · rintro ⟨i, hi, hpolls, rfl⟩
    exact hi.comesTo hpolls
  · rcases hcases with ⟨i, hi, hpolls⟩ | hstop | ⟨hmiss, hpolls⟩
    · cases h.eq (hi.comesTo hpolls)
    · exact hstop
    · cases h.eq (comesTo_unfinished hmiss hpolls)
  · rintro ⟨poll, hs, hbefore⟩
    exact comesTo_stopped hs hbefore
  · rcases hcases with ⟨i, hi, hpolls⟩ | ⟨poll, hs, hbefore⟩ | hend
    · cases h.eq (hi.comesTo hpolls)
    · obtain ⟨first, hstopped⟩ := comesTo_stopped hs hbefore
      cases h.eq hstopped
    · exact hend
  · rintro ⟨hmiss, hpolls⟩
    exact comesTo_unfinished hmiss hpolls
  · intro rounds b h
    have hm : c.Makes timestamp b := makes_of_search h
    have hf : Acceptance.Fits b previous difficulty := hm.fits
    obtain ⟨nonce, hash, rfl⟩ := hm.eq_block
    refine ⟨fun now hn => Acceptance.inspectBase_eq_ok_iff.mpr ⟨hn, hf⟩, ?_⟩
    rw [Block.showsWork, hf.worked, hf.hashed, beq_self_eq_true, Bool.and_self]

/-! A candidate on the first block, and nonces that miss until late in the third round. -/

section

open Ledger.KeySwap

def opening : Candidate :=
  on Block.genesis [] "Miner 0" ⟨"1PCdcx5Yf8mf4Y4xidgdE5idZaprqBt6BW", 100⟩ 2

def lateNonces (i : Nat) : UInt64 := if i < 9000 then 0 else 248

theorem attempt?_opening : opening.attempt? funding.timestamp 248 = some funding :=
  attempt?_of_fits funding_acceptable.fits rfl rfl

theorem not_hits_opening : ¬ opening.Hits funding.timestamp 0 := by
  have hd : opening.digest = funding.digest := funding_acceptable.fits.digested
  have hh : opening.header funding.timestamp 0 = { funding.header with nonce := 0 } := by
    rw [header, hd]
    rfl
  rw [Hits, hh, Header.hash, sha256Hex_eq]
  decide +kernel

theorem firstHit_opening : opening.FirstHit funding.timestamp lateNonces 9000 :=
  ⟨(attempt?_eq_some_iff.mp attempt?_opening).1, fun j hj => by
    rw [lateNonces, if_pos hj]
    exact not_hits_opening⟩

/-- Stopped from the fourth poll on, the search has found its block; stopped from the third on, it
has not. -/
theorem search_comesTo_late :
    opening.ComesTo funding.timestamp lateNonces (3 ≤ ·) (.found funding) ∧
    (∃ poll, opening.ComesTo funding.timestamp lateNonces (2 ≤ ·) (.stopped poll)) ∧
    funding.showsWork 2 = true := by
  have hpolls : ∀ poll ≤ 9000 / 4096, decide (3 ≤ poll) = false := by decide
  have hfound : opening.ComesTo funding.timestamp lateNonces (3 ≤ ·) (.found funding) := by
    refine ((search_comesTo Block.genesis [] _ _ 2 _ lateNonces (3 ≤ ·)).1 funding).mpr
      ⟨9000, firstHit_opening, hpolls, ?_⟩
    exact (attempt?_eq_some_iff.mp attempt?_opening).2
  obtain ⟨enough, hsearch⟩ := hfound
  refine ⟨⟨enough, hsearch⟩, ?_, ?_⟩
  · refine (search_comesTo Block.genesis [] _ _ 2 _ lateNonces (2 ≤ ·)).2.1.mpr
      ⟨2, rfl, fun i hi => ?_⟩
    rw [hi.eq firstHit_opening]
  · exact ((search_comesTo Block.genesis [] _ _ 2 _ lateNonces (3 ≤ ·)).2.2.2 enough funding
      (hsearch enough (Nat.le_refl _))).2

end

end WorkLedger.Candidate
