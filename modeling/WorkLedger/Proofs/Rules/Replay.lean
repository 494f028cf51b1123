import WorkLedger.Proofs.Rules.Verdicts

/-! What strict verification asks for. A block gets past a replay if it stands at its own height,
fits on the block before it at the difficulty that was replayed, mints the reward, is signed, and is
covered by the balances that were replayed. Verifying a chain is replaying it from its first block,
and a look for repeats at the end. -/

namespace WorkLedger

open Transaction (identity)

theorem Acceptance.hasReward_iff {b : Block} :
    hasReward b = true ↔ ∃ r, b.reward = some r ∧ r.amount = rewardValue := by
  rw [hasReward, Option.any_eq_true]
  simp only [beq_iff_eq]

theorem Acceptance.inspectContents_isOk_iff {candidate previous : Block} {difficulty : Nat} :
    (inspectContents candidate previous difficulty).isOk = true ↔
      Fits candidate previous difficulty := by
  rw [← inspectContents_eq_ok_iff]
  cases inspectContents candidate previous difficulty with
  | error rejection => exact ⟨fun h => (nomatch h), fun h => (nomatch h)⟩
  | ok _ => exact ⟨fun _ => rfl, fun _ => rfl⟩

namespace Replay

/-- The replay with one more block, whatever it is. -/
def advance (r : Replay) (b : Block) : Replay :=
  ⟨r.passed ++ [b], b, r.difficulty.adjust (r.passed ++ [b]), r.sheet.apply b⟩

/-- What lets a block past a replay. -/
structure Passes (r : Replay) (b : Block) : Prop where
  next : b.height.toNat = r.passed.length
  fits : Acceptance.Fits b r.last r.difficulty.zeros
  rewarded : Acceptance.hasReward b = true
  signed : Acceptance.allSigned b = true
  covered : r.sheet.covers b = true
  sound : (r.sheet.apply b).noneNegative = true

variable {r r' : Replay} {b : Block}

theorem step_eq_some_iff : r.step b = some r' ↔ r.Passes b ∧ r' = r.advance b := by
  rw [step, BalanceSheet.check]
  cases hs : Acceptance.allSigned b with
  | false =>
    refine ⟨fun h => ?_, fun ⟨hp, _⟩ => ?_⟩
    · obtain ⟨⟨_, _, _, hc⟩, _⟩ := Option.ite_some_none_eq_some.mp h
      cases hc
    · rw [hp.signed] at hs
      cases hs
  | true =>
    constructor
    · intro h
      obtain ⟨⟨hn, hf, hr, hc⟩, he⟩ := Option.ite_some_none_eq_some.mp h
      have hc : (r.sheet.covers b && (r.sheet.apply b).noneNegative) = true := hc
      obtain ⟨hc, hz⟩ := Bool.and_eq_true_iff.mp hc
      exact ⟨⟨hn, Acceptance.inspectContents_isOk_iff.mp hf, hr, hs, hc, hz⟩, he.symm⟩
    · rintro ⟨h, rfl⟩
      refine Option.ite_some_none_eq_some.mpr ⟨⟨h.next, ?_, h.rewarded, ?_⟩, rfl⟩
      · exact Acceptance.inspectContents_isOk_iff.mpr h.fits
      · exact Bool.and_eq_true_iff.mpr ⟨h.covered, h.sound⟩

theorem run_append (r : Replay) (bs cs : List Block) :
    r.run (bs ++ cs) = (r.run bs).bind fun r => r.run cs := by
  induction bs generalizing r with
  | nil => rfl
  | cons b bs ih =>
    rw [List.cons_append, run, run]
    cases r.step b with
    | none => rfl
    | some r' => exact ih r'

/-- A replay ends with its last block. -/
theorem run_snoc {bs : List Block} (h : r.run bs = some r') (hb : r'.Passes b) :
    r.run (bs ++ [b]) = some (r'.advance b) := by
  rw [run_append, h, Option.bind_some, run, step_eq_some_iff.mpr ⟨hb, rfl⟩]
  rfl

/-- A replay that got past its last block stood somewhere before it. -/
theorem exists_of_run_snoc {bs : List Block} (h : r.run (bs ++ [b]) = some r') :
    ∃ m, r.run bs = some m ∧ m.Passes b ∧ r' = m.advance b := by
  rw [run_append] at h
  obtain ⟨m, hm, hr⟩ := Option.bind_eq_some_iff.mp h
  obtain ⟨n, hn, hr⟩ := Option.bind_eq_some_iff.mp hr
  obtain ⟨hp, rfl⟩ := step_eq_some_iff.mp hn
  cases hr
  exact ⟨m, hm, hp, rfl⟩

theorem allSigned_of_run {bs : List Block} (h : r.run bs = some r') :
    ∀ b ∈ bs, Acceptance.allSigned b = true := by
  induction bs generalizing r with
  | nil => exact fun _ hb => absurd hb List.not_mem_nil
  | cons b bs ih =>
    obtain ⟨m, hm, hr⟩ := Option.bind_eq_some_iff.mp h
    exact List.forall_mem_cons.mpr ⟨(step_eq_some_iff.mp hm).1.signed, ih hr⟩

end Replay

/-- A chain is good if its first block is the first block, the others can be replayed on it, and no
transaction is there twice. -/
theorem verifyChain_cons_iff {genesis : Block} {rest : List Block} {initial : Nat} :
    verifyChain (genesis :: rest) initial = true ↔
      genesis.isGenesis = true ∧ genesis.hash = Block.genesis.hash ∧
        (∃ r, (Replay.start genesis initial).run rest = some r) ∧
        (((genesis :: rest).flatMap (·.transactions)).map identity).Nodup := by
  rw [verifyChain, Bool.and_eq_true, Bool.and_eq_true, Bool.and_eq_true, beq_iff_eq,
    Option.isSome_iff_exists, Acceptance.hasRepeats, Bool.not_not, decide_eq_true_eq, and_assoc,
    and_assoc]

end WorkLedger
