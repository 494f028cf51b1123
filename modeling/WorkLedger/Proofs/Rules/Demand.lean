import WorkLedger.Proofs.Rules.Continuation
import WorkLedger.Proofs.Simulation.Resume

/-! The work that verification demands. Of all that strict verification asks for, the difficulty
that it starts from has a say in one thing only: how many zeros each block hash needs. Started lower
it never gets above where it would be otherwise, so a chain that passes from some difficulty passes
from each lower one, and what the higher one asks for besides is work alone. -/

namespace WorkLedger

variable {chain : List Block} {b : Block} {initial less more : Nat}

/-- Each block on top of the first shows the work that a replay from this difficulty has come to ask
for in its place. -/
def ShowsWork (chain : List Block) (initial : Nat) : Prop :=
  ∀ below b, below ≠ [] → below ++ [b] <+: chain →
    meetsDifficulty b.hash
      ((Difficulty.ofNat initial).recount (Difficulty.timesOf below)).zeros = true

theorem showsWork_singleton (genesis : Block) (initial : Nat) : ShowsWork [genesis] initial := by
  intro below b hne hp
  have hl := hp.length_le
  have hb : 0 < below.length := List.length_pos_iff.mpr hne
  rw [List.length_append, List.length_singleton, List.length_singleton] at hl
  omega

theorem showsWork_snoc_iff (hne : chain ≠ []) : ShowsWork (chain ++ [b]) initial ↔
    ShowsWork chain initial ∧
      meetsDifficulty b.hash
        ((Difficulty.ofNat initial).recount (Difficulty.timesOf chain)).zeros = true := by
  constructor
  · intro h
    refine ⟨fun below c hc hp => ?_, h chain b hne (List.prefix_refl _)⟩
    exact h below c hc (hp.trans (List.prefix_append _ _))
  · rintro ⟨h, hb⟩ below c hc hp
    rcases List.prefix_concat_iff.mp hp with he | hp
    · -- The block at the end is the new one.
      obtain ⟨rfl, hcb⟩ := List.append_inj' he rfl
      obtain rfl : c = b := by simpa using hcb
      exact hb
    · exact h below c hc hp

/-- Counted from a lower start, the work that is asked for is less everywhere or the same. -/
theorem ShowsWork.of_le (hle : less ≤ more) (h : ShowsWork chain more) : ShowsWork chain less := by
  intro below b hne hp
  have hstart : (Difficulty.ofNat less).zeros ≤ (Difficulty.ofNat more).zeros := by
    simp only [Difficulty.ofNat]
    omega
  exact meetsDifficulty_of_le (Difficulty.recount_mono hstart _) (h below b hne hp)

/-- What another start asks of one more block differs in the work. -/
theorem Continues.under {hne : chain ≠ []} (h : Continues chain hne initial b) {other : Nat}
    (hw : meetsDifficulty b.hash
      ((Difficulty.ofNat other).recount (Difficulty.timesOf chain)).zeros = true) :
    Continues chain hne other b where
  next := h.next
  fits := ⟨h.fits.linked, hw, h.fits.digested, h.fits.hashed⟩
  rewarded := h.rewarded
  signed := h.signed
  covered := h.covered
  distinct := h.distinct

/-- Verification that started elsewhere only has the work left to look at. -/
theorem verifyChain_iff_showsWork {other : Nat} (hv : verifyChain chain other = true) :
    verifyChain chain initial = true ↔ ShowsWork chain initial := by
  induction chain using List.reverseRecOn with
  | nil => cases hv
  | append_singleton chain b ih =>
    by_cases hne : chain = []
    · subst hne
      refine ⟨fun _ => showsWork_singleton b initial, fun _ => ?_⟩
      obtain ⟨hg, hh, _, hn⟩ := verifyChain_cons_iff.mp hv
      exact verifyChain_cons_iff.mpr ⟨hg, hh, ⟨_, rfl⟩, hn⟩
    · obtain ⟨hbelow, hc⟩ := (verifyChain_snoc_iff hne).mp hv
      rw [verifyChain_snoc_iff hne, showsWork_snoc_iff hne, ih hbelow]
      constructor
      · rintro ⟨hs, hb⟩
        exact ⟨hs, hb.fits.worked⟩
      · rintro ⟨hs, hw⟩
        exact ⟨hs, hc.under hw⟩

/-- A chain that passes strict verification from some difficulty passes it from each lower one, in
or out of the range that is allowed. -/
theorem verifyChain_of_le (hle : less ≤ more) (h : verifyChain chain more = true) :
    verifyChain chain less = true := by
  have hw : ShowsWork chain more := (verifyChain_iff_showsWork h).mp h
  exact (verifyChain_iff_showsWork h).mpr (hw.of_le hle)

/-- A block that carries nothing has nothing to sign and nothing to cover. -/
theorem continues_of_transactions_eq_nil {hne : chain ≠ []} (hv : verifyChain chain initial = true)
    (hnext : b.height.toNat = chain.length)
    (hfits : Acceptance.Fits b (chain.getLast hne)
      ((Difficulty.ofNat initial).recount (Difficulty.timesOf chain)).zeros)
    (hr : Acceptance.hasReward b = true) (ht : b.transactions = []) :
    Continues chain hne initial b where
  next := hnext
  fits := hfits
  rewarded := hr
  signed := by simp [Acceptance.allSigned, ht]
  covered := by
    intro a
    rw [ht, paidBy_nil]
    exact Balance.exact_nonneg_of_verifyChain hv a
  distinct := by
    rw [List.flatMap_append, List.flatMap_singleton, ht, List.append_nil]
    exact distinct_of_verifyChain hv

open Simulator.Paused in
/-- Three blocks with the work that a new ledger asks for, of which a lower start asks for less. -/
theorem verifyChain_of_le_paused :
    3 ≤ 5 ∧ verifyChain [Block.genesis, funding, second, third] 5 = true ∧
      verifyChain [Block.genesis, funding, second, third] 3 = true := by
  have hgenesis : verifyChain [Block.genesis] 5 = true := by decide
  have hfunding : verifyChain ([Block.genesis] ++ [funding]) 5 = true :=
    (verifyChain_snoc_iff (List.cons_ne_nil _ _)).mpr
      ⟨hgenesis, continues_of_transactions_eq_nil hgenesis rfl fits.1 rfl rfl⟩
  have hsecond : verifyChain ([Block.genesis, funding] ++ [second]) 5 = true :=
    (verifyChain_snoc_iff (List.cons_ne_nil _ _)).mpr
      ⟨hfunding, continues_of_transactions_eq_nil hfunding rfl fits.2.2.1 rfl rfl⟩
  have hthird : verifyChain ([Block.genesis, funding, second] ++ [third]) 5 = true :=
    (verifyChain_snoc_iff (List.cons_ne_nil _ _)).mpr
      ⟨hsecond, continues_of_transactions_eq_nil hsecond rfl fits.2.2.2 rfl rfl⟩
  exact ⟨by decide, hthird, verifyChain_of_le (by decide) hthird⟩

end WorkLedger
