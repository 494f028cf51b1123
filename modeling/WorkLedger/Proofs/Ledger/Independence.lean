import WorkLedger.Proofs.Ledger.Timeliness

/-! Independence. Each check of a new transaction scans the whole pool, but the only entries that
matter to it are those of the same sender: a known transaction has the sender of the new one, times
are compared within a sender, and what others are about to pay is no money yet. So nobody can make
the transactions of somebody else pass or fail by submitting anything before them, and submissions
of different senders may change places. -/

namespace WorkLedger

open Admission (verdict)

/-- What one sender has in a list, in its order. -/
def ofSender (sender : String) (ts : List Transaction) : List Transaction :=
  ts.filter (·.sender == sender)

variable {sender : String} {t u : Transaction} {ts us : List Transaction} {chain : List Block}
  {pool other : Pool}

theorem ofSender_append (sender : String) (ts us : List Transaction) :
    ofSender sender (ts ++ us) = ofSender sender ts ++ ofSender sender us := by
  simp [ofSender]

theorem ofSender_singleton (sender : String) (t : Transaction) :
    ofSender sender [t] = if t.sender = sender then [t] else [] := by
  by_cases h : t.sender = sender <;> simp [ofSender, h]

theorem ofSender_cons (sender : String) (t : Transaction) (ts : List Transaction) :
    ofSender sender (t :: ts) =
      if t.sender = sender then t :: ofSender sender ts else ofSender sender ts := by
  by_cases h : t.sender = sender <;> simp [ofSender, h]

/-- Lists in which every sender has the same differ only in how the senders are mixed. -/
theorem perm_of_ofSender (h : ∀ sender, ofSender sender ts = ofSender sender us) : ts.Perm us := by
  refine List.perm_iff_count.mpr fun t => ?_
  have key (xs : List Transaction) : xs.count t = (ofSender t.sender xs).count t := by
    rw [ofSender, List.count_filter (by simp)]
  rw [key, h, ← key]

/-! ## One verdict -/

namespace Admission

theorem occursIn_ofSender (t : Transaction) (ts : List Transaction) :
    t.occursIn (ofSender t.sender ts) = t.occursIn ts := by
  have hs (u : Transaction) : (u.sender == t.sender && u.identity == t.identity) =
      (u.identity == t.identity) := by
    cases hi : u.identity == t.identity with
    | false => simp
    | true =>
      -- The sender is a part of what makes two transactions the same one.
      have hu : u.sender = t.sender :=
        congrArg (·.transfer.sender) (beq_iff_eq.mp hi)
      simp [hu]
  simp only [Transaction.occursIn, ofSender, List.any_filter, hs]

theorem latestTime_ofSender (sender : String) (chain : List Block) (pool : Pool) :
    latestTime sender chain (ofSender sender pool) = latestTime sender chain pool := by
  simp [latestTime, ofSender]

theorem raw_ofSender (sender : String) (chain : List Block) (pool : Pool) :
    Balance.raw sender chain (ofSender sender pool) = Balance.raw sender chain pool := by
  simp [Balance.raw, Balance.spent, ofSender]

theorem verdict_ofSender (t : Transaction) (chain : List Block) (pool : Pool) :
    verdict t chain (ofSender t.sender pool) = verdict t chain pool := by
  simp only [verdict, isKnown, isTimely, fundsFault, occursIn_ofSender, latestTime_ofSender,
    raw_ofSender]

theorem verdict_congr (chain : List Block)
    (h : ofSender t.sender pool = ofSender t.sender other) :
    verdict t chain pool = verdict t chain other := by
  rw [← verdict_ofSender t chain pool, h, verdict_ofSender]

end Admission

/-! ## Submissions one after the other -/

namespace Pool

/-- The pool once a transaction was submitted, taken or not. -/
def offer (chain : List Block) (pool : Pool) (t : Transaction) : Pool :=
  match pool.submit t chain with
  | .ok pool => pool
  | .error _ => pool

def offerAll (chain : List Block) (pool : Pool) (ts : List Transaction) : Pool :=
  ts.foldl (offer chain) pool

/-- Each submission with its verdict, in order. -/
def verdicts (chain : List Block) : Pool → List Transaction →
    List (Transaction × Except Transaction.Rejection Unit)
  | _, [] => []
  | pool, t :: rest => (t, verdict t chain pool) :: verdicts chain (pool.offer chain t) rest

theorem offer_eq (chain : List Block) (pool : Pool) (t : Transaction) :
    pool.offer chain t = if (verdict t chain pool).isOk then pool ++ [t] else pool := by
  rw [offer, submit]
  cases verdict t chain pool with
  | error rejection => rfl
  | ok _ => rfl

/-- A submission changes what its own sender has, and that as if nobody else had anything. -/
theorem ofSender_offer (sender : String) (chain : List Block) (pool : Pool) (t : Transaction) :
    ofSender sender (pool.offer chain t) =
      if t.sender = sender then Pool.offer chain (ofSender sender pool) t
      else ofSender sender pool := by
  by_cases h : t.sender = sender
  · subst h
    simp only [offer_eq, Admission.verdict_ofSender, if_true]
    split
    · simp [ofSender_append, ofSender_singleton]
    · rfl
  · rw [if_neg h, offer_eq]
    split
    · simp [ofSender_append, ofSender_singleton, h]
    · rfl

/-- What a sender has after any submissions is what its own would have come to without the rest. -/
theorem ofSender_offerAll (sender : String) (chain : List Block) (pool : Pool)
    (ts : List Transaction) :
    ofSender sender (pool.offerAll chain ts) =
      Pool.offerAll chain (ofSender sender pool) (ofSender sender ts) := by
  induction ts generalizing pool with
  | nil => rfl
  | cons t rest ih =>
    have hrest := ih (pool.offer chain t)
    rw [ofSender_offer] at hrest
    rw [ofSender_cons]
    by_cases h : t.sender = sender
    · rw [if_pos h] at hrest ⊢
      exact hrest
    · rw [if_neg h] at hrest ⊢
      exact hrest

/-- So are the verdicts on its submissions. -/
theorem filter_verdicts (sender : String) (chain : List Block) (pool : Pool)
    (ts : List Transaction) :
    (pool.verdicts chain ts).filter (·.1.sender == sender) =
      Pool.verdicts chain (ofSender sender pool) (ofSender sender ts) := by
  induction ts generalizing pool with
  | nil => rfl
  | cons t rest ih =>
    have hrest := ih (pool.offer chain t)
    rw [ofSender_offer] at hrest
    rw [ofSender_cons, verdicts]
    by_cases h : t.sender = sender
    · subst h
      rw [if_pos rfl] at hrest ⊢
      simp [verdicts, hrest, Admission.verdict_ofSender]
    · rw [if_neg h] at hrest ⊢
      simp [hrest, h]

/-- However the submissions of several senders are mixed, each of them has the same fate, and the
pool ends with the same transactions. -/
theorem offerAll_perm (chain : List Block) (pool : Pool)
    (h : ∀ sender, ofSender sender ts = ofSender sender us) :
    (∀ sender, (pool.verdicts chain ts).filter (·.1.sender == sender) =
      (pool.verdicts chain us).filter (·.1.sender == sender)) ∧
    (pool.offerAll chain ts).Perm (pool.offerAll chain us) := by
  constructor
  · intro sender
    rw [filter_verdicts, h, ← filter_verdicts]
  · refine perm_of_ofSender fun sender => ?_
    rw [ofSender_offerAll, h, ← ofSender_offerAll]

theorem ofSender_pair_swap (h : t.sender ≠ u.sender) (sender : String) :
    ofSender sender [t, u] = ofSender sender [u, t] := by
  simp only [ofSender_cons]
  by_cases ht : t.sender = sender
  · subst ht
    simp [Ne.symm h]
  · simp [ht]

end Pool

/-- Two transactions of different senders get the same verdicts in either order, with the same time
and the same funds named in a rejection, and leave the same transactions pending. More generally, a
verdict stays what it is while transactions of other senders come into the pool, leave it or change
places in it: all it depends on is what the sender has there, in its order. -/
theorem verdict_independent_of_others (chain : List Block) :
    (∀ (pool : Pool) (t u : Transaction), t.sender ≠ u.sender →
      verdict u chain (pool.offer chain t) = verdict u chain pool ∧
      verdict t chain (pool.offer chain u) = verdict t chain pool ∧
      ((pool.offer chain t).offer chain u).Perm ((pool.offer chain u).offer chain t)) ∧
    ∀ (pool other : Pool) (t : Transaction),
      ofSender t.sender pool = ofSender t.sender other →
        verdict t chain pool = verdict t chain other := by
  refine ⟨fun pool t u h => ⟨?_, ?_, ?_⟩, fun _ _ _ => Admission.verdict_congr chain⟩
  · refine Admission.verdict_congr chain ?_
    rw [Pool.ofSender_offer, if_neg h]
  · refine Admission.verdict_congr chain ?_
    rw [Pool.ofSender_offer, if_neg h.symm]
  · exact (Pool.offerAll_perm chain pool (Pool.ofSender_pair_swap h)).2

namespace Ledger.Overtaking

/-- Passes on coins that are still pending. -/
def hopeful : Transaction where
  transfer := ⟨"SC", "TC", 10⟩
  timestamp := 1500000003000
  signature := []
  publicKey := []

end Ledger.Overtaking

open Ledger.Overtaking in
/-- Of two senders, one may spend and the other may not, whoever comes first: what the first pays to
the second is not the second's money yet. -/
theorem verdict_independent_of_others_hopeful :
    let chain := ((Ledger.withDifficulty 2).extend funding).chain
    late.sender ≠ hopeful.sender ∧
      verdict late chain (Pool.offer chain [early] hopeful) = .ok () ∧
      verdict hopeful chain (Pool.offer chain [early] late) =
        .error (.insufficientFunds 10 0) ∧
      (Pool.offer chain (Pool.offer chain [early] late) hopeful).Perm
        (Pool.offer chain (Pool.offer chain [early] hopeful) late) ∧
      ofSender late.sender [hopeful, early] = ofSender late.sender [early] ∧
      verdict late chain [hopeful, early] = .ok () := by
  intro chain
  have hne : late.sender ≠ hopeful.sender := by decide
  have hlate : verdict late chain [early] = .ok () :=
    Admission.verdict_eq_ok_iff.mpr late_admissible
  have hhopeful : verdict hopeful chain [early] = .error (.insufficientFunds 10 0) := by decide
  have hmine : ofSender late.sender [hopeful, early] = ofSender late.sender [early] := by decide
  obtain ⟨hpair, hmore⟩ := verdict_independent_of_others chain
  obtain ⟨hh, hl, hp⟩ := hpair [early] late hopeful hne
  exact ⟨hne, hl.trans hlate, hh.trans hhopeful, hp, hmine, (hmore _ _ late hmine).trans hlate⟩

end WorkLedger
