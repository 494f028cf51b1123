import WorkLedger.Proofs.Balance.Sheet
import WorkLedger.Proofs.Rules.Replay

/-! Balances of a verified chain. Strict verification keeps a sheet that saturates, and asks of it
that each block is covered. The height of a block is a 32-bit number, so a chain that passes is too
short for its rewards to come near the greatest number: the sheet is exact throughout, and no
address owes more on the chain than it was paid there. -/

namespace WorkLedger

/-- The sheet shows what the chain alone comes to. -/
def BalanceSheet.ShowsChain (sheet : BalanceSheet) (chain : List Block) : Prop :=
  sheet.Shows (fun a => Balance.exact a chain []) (rewardValue.toNat * (mined chain).length : Nat)

theorem supply_bound {blocks : Nat} (hz : blocks < UInt32.size) :
    2 * (rewardValue.toNat * blocks : Nat) + 2 * rewardValue.toNat ≤ Coins.greatest := by
  have hg := Coins.greatest_eq
  have hr : rewardValue.toNat = 100 := rfl
  have hu : UInt32.size = 4294967296 := rfl
  rw [hr]
  omega

namespace BalanceSheet.ShowsChain

variable {sheet : BalanceSheet} {chain : List Block} {b : Block}

/-- What is covered on the sheet is covered by exact balances. -/
theorem paidBy_le (h : sheet.ShowsChain chain) (hz : (mined chain).length < UInt32.size)
    (hc : sheet.covers b = true) (a : String) :
    (paidBy a b.transactions : Int) ≤ Balance.exact a chain [] := by
  have hg := Coins.greatest_eq
  have hs := supply_bound hz
  have hle := h.le_supply a
  have hp := (covers_iff (fun a => h.get_eq a ▸ h.nonneg a)).mp hc a
  rw [h.get_eq] at hp
  omega

theorem apply (h : sheet.ShowsChain chain) (hne : chain ≠ [])
    (hz : (mined chain).length < UInt32.size) (hr : Acceptance.hasReward b = true)
    (hp : ∀ a, (paidBy a b.transactions : Int) ≤ Balance.exact a chain []) :
    (sheet.apply b).ShowsChain (chain ++ [b]) := by
  obtain ⟨reward, hr, hv⟩ := Acceptance.hasReward_iff.mp hr
  have hg := supply_bound hz
  have hs := Shows.apply h hr hp (by omega) (by rw [hv]; omega)
  refine hs.of_eq (fun a => Balance.exact_append hne b) ?_
  rw [hv, mined_append hne, List.length_append, List.length_singleton, Nat.mul_succ,
    Int.natCast_add]

end BalanceSheet.ShowsChain

namespace Replay

variable {r r' : Replay} {b : Block} {bs : List Block}

/-- The height of the next block bounds what was replayed before it. -/
theorem Passes.length_mined_lt (hb : r.Passes b) : (mined r.passed).length < UInt32.size := by
  have hn := b.height.toNat_lt_size
  rw [hb.next] at hn
  rw [mined, List.length_drop]
  omega

theorem showsChain_advance (h : r.sheet.ShowsChain r.passed) (hne : r.passed ≠ [])
    (hb : r.Passes b) : (r.advance b).sheet.ShowsChain (r.advance b).passed := by
  have hz := hb.length_mined_lt
  exact h.apply hne hz hb.rewarded (h.paidBy_le hz hb.covered)

theorem showsChain_run (h : r.sheet.ShowsChain r.passed) (hne : r.passed ≠ [])
    (hr : r.run bs = some r') :
    r'.sheet.ShowsChain r'.passed ∧ r'.passed = r.passed ++ bs := by
  induction bs generalizing r with
  | nil =>
    cases hr
    exact ⟨h, (List.append_nil _).symm⟩
  | cons b bs ih =>
    obtain ⟨m, hm, hr⟩ := Option.bind_eq_some_iff.mp hr
    obtain ⟨hb, rfl⟩ := step_eq_some_iff.mp hm
    obtain ⟨hs, hp⟩ := ih (showsChain_advance h hne hb) (List.append_ne_nil_of_left_ne_nil hne _) hr
    refine ⟨hs, hp.trans ?_⟩
    rw [advance, List.append_assoc, List.singleton_append]

end Replay

/-- A chain that passes strict verification has a sheet. -/
theorem showsChain_of_verifyChain {chain : List Block} {initial : Nat}
    (h : verifyChain chain initial = true) : ∃ sheet : BalanceSheet, sheet.ShowsChain chain := by
  cases chain with
  | nil => cases h
  | cons genesis rest =>
    obtain ⟨_, _, ⟨r, hr⟩, _⟩ := verifyChain_cons_iff.mp h
    have h0 : (Replay.start genesis initial).sheet.ShowsChain [genesis] := BalanceSheet.shows_empty
    obtain ⟨hs, hp⟩ := Replay.showsChain_run h0 (List.cons_ne_nil _ _) hr
    rw [hp] at hs
    exact ⟨r.sheet, hs⟩

theorem Balance.exact_nonneg_of_verifyChain {chain : List Block} {initial : Nat}
    (h : verifyChain chain initial = true) (address : String) : 0 ≤ exact address chain [] := by
  obtain ⟨_, hs⟩ := showsChain_of_verifyChain h
  exact hs.nonneg address

end WorkLedger
