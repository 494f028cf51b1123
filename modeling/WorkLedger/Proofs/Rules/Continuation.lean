import Mathlib.Data.List.Induction
import WorkLedger.Proofs.Balance.Supply
import WorkLedger.Proofs.Rules.Recount

/-! Verification one block at a time. A replay carries a block, a difficulty and a sheet along, and
all three are known from the chain that it has come through. So what strict verification asks of one
more block can be told by the chain alone. -/

namespace WorkLedger

open Transaction (identity)

namespace Replay

variable {genesis : Block} {initial : Nat} {r : Replay} {blocks : List Block}

/-- A replay stands on its last block, at the difficulty that counting from its start leads to. -/
theorem tip_of_run (h : (start genesis initial).run blocks = some r) :
    r.last = (genesis :: blocks).getLast (List.cons_ne_nil _ _) ∧
      r.difficulty =
        (Difficulty.ofNat initial).recount (Difficulty.timesOf (genesis :: blocks)) := by
  induction blocks using List.reverseRecOn generalizing r with
  | nil =>
    cases h
    exact ⟨rfl, (Difficulty.recount_singleton _ _).symm⟩
  | append_singleton blocks b ih =>
    obtain ⟨m, hm, hb, rfl⟩ := exists_of_run_snoc h
    obtain ⟨_, hd⟩ := ih hm
    have hp : m.passed = genesis :: blocks := (state_of_run hm).1
    have hn : b.height.toNat = (genesis :: blocks).length := by
      rw [← hp]
      exact hb.next
    refine ⟨by simp [advance], ?_⟩
    rw [advance, hp, hd, ← List.cons_append, Difficulty.recount_timesOf_snoc _ hn]

end Replay

/-- What strict verification asks of one more block on a chain. -/
structure Continues (chain : List Block) (hne : chain ≠ []) (initial : Nat) (b : Block) :
    Prop where
  next : b.height.toNat = chain.length
  fits : Acceptance.Fits b (chain.getLast hne)
    ((Difficulty.ofNat initial).recount (Difficulty.timesOf chain)).zeros
  rewarded : Acceptance.hasReward b = true
  signed : Acceptance.allSigned b = true
  covered : ∀ a, (paidBy a b.transactions : Int) ≤ Balance.exact a chain []
  distinct : (((chain ++ [b]).flatMap (·.transactions)).map identity).Nodup

variable {chain : List Block} {b : Block} {initial : Nat}

theorem verifyChain_snoc_iff (hne : chain ≠ []) : verifyChain (chain ++ [b]) initial = true ↔
    verifyChain chain initial = true ∧ Continues chain hne initial b := by
  cases chain with
  | nil => exact absurd rfl hne
  | cons genesis rest =>
    constructor
    · intro h
      refine ⟨verifyChain_of_isPrefix (List.prefix_append _ _) hne h, ?_⟩
      obtain ⟨_, _, ⟨_, hr⟩, hn⟩ := verifyChain_cons_iff.mp h
      obtain ⟨m, hm, hb, _⟩ := Replay.exists_of_run_snoc hr
      obtain ⟨hp, _, hs⟩ := Replay.state_of_run hm
      obtain ⟨hl, hd⟩ := Replay.tip_of_run hm
      have hz := hb.length_mined_lt
      have hnext := hb.next
      rw [hp] at hz hnext
      have hfits := hb.fits
      rw [hl, hd] at hfits
      exact ⟨hnext, hfits, hb.rewarded, hb.signed, hs.paidBy_le hz hb.covered, hn⟩
    · rintro ⟨h, hc⟩
      obtain ⟨hg, hh, ⟨m, hm⟩, _⟩ := verifyChain_cons_iff.mp h
      obtain ⟨hp, _, hs⟩ := Replay.state_of_run hm
      obtain ⟨hl, hd⟩ := Replay.tip_of_run hm
      -- The height of the new block bounds the supply below it.
      have hz : (mined (genesis :: rest)).length < UInt32.size := by
        have hb := b.height.toNat_lt_size
        rw [hc.next, List.length_cons] at hb
        exact Nat.lt_of_succ_lt hb
      have hpass : m.Passes b := by
        refine ⟨?_, ?_, hc.rewarded, hc.signed, ?_, ?_⟩
        · rw [hp]
          exact hc.next
        · rw [hl, hd]
          exact hc.fits
        · exact BalanceSheet.Shows.covers_eq hs hc.covered
        · exact (hs.apply hne hz hc.rewarded hc.covered).noneNegative_eq
      exact verifyChain_cons_iff.mpr ⟨hg, hh, ⟨_, Replay.run_snoc hm hpass⟩, hc.distinct⟩

theorem distinct_of_verifyChain (h : verifyChain chain initial = true) :
    ((chain.flatMap (·.transactions)).map identity).Nodup := by
  cases chain with
  | nil => cases h
  | cons genesis rest => exact (verifyChain_cons_iff.mp h).2.2.2

/-- The blocks of a verified chain stand at their heights. -/
theorem heights_of_verifyChain (h : verifyChain chain initial = true) :
    chain.map (·.height.toNat) = List.range chain.length := by
  induction chain using List.reverseRecOn with
  | nil => rfl
  | append_singleton chain b ih =>
    by_cases hne : chain = []
    · subst hne
      obtain ⟨hg, _⟩ := verifyChain_cons_iff.mp h
      have hb : b.height = 0 := beq_iff_eq.mp hg
      simp [hb]
    · obtain ⟨hv, hc⟩ := (verifyChain_snoc_iff hne).mp h
      rw [List.map_append, ih hv, List.map_singleton, hc.next, List.length_append,
        List.length_singleton, List.range_succ]

/-- A verified chain is no longer than heights can tell its blocks apart. -/
theorem length_mined_of_verifyChain (h : verifyChain chain initial = true) :
    (mined chain).length < UInt32.size := by
  rcases List.eq_nil_or_concat chain with rfl | ⟨below, b, rfl⟩
  · cases h
  · rw [List.concat_eq_append] at h ⊢
    by_cases hne : below = []
    · subst hne
      exact Nat.zero_lt_of_lt b.height.toNat_lt_size
    · have hb := b.height.toNat_lt_size
      rw [((verifyChain_snoc_iff hne).mp h).2.next] at hb
      rwa [mined, List.length_drop, List.length_append, List.length_singleton, Nat.add_sub_cancel]

end WorkLedger
