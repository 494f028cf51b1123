import WorkLedger.Proofs.Balance.Exact
import WorkLedger.Proofs.Ledger.Accounting

/-! Solvency. No address ever owes more than it owns, pending payments included. Admission compares
an amount with a balance that saturates, so it matters that this balance never overstates the exact
one. A block then moves payments from the pool to the chain without counting them twice, and pays
the rest. -/

namespace WorkLedger.Ledger

open Transaction (identity)

/-- The exact balance of an address, pending payments taken off. -/
def exact (l : Ledger) (address : String) : Int := Balance.exact address l.chain l.pool

def Solvent (l : Ledger) : Prop := ∀ address, 0 ≤ l.exact address

variable {l : Ledger} {address : String}

theorem exact_enqueue (l : Ledger) (t : Transaction) (address : String) :
    (l.enqueue t).exact address =
      l.exact address - (if t.sender = address then t.amount.toNat else 0 : Nat) := by
  change Balance.exact address l.chain (l.pool ++ [t]) = Balance.exact address l.chain l.pool - _
  unfold Balance.exact
  rw [← List.append_assoc, paidBy_append, paidBy_cons, paidBy_nil]
  omega

/-- A block pays its receivers and its miner. What its senders pay was taken off already. -/
theorem exact_extend {b : Block} (hn : (l.pool.map identity).Nodup)
    (hb : Acceptance.backedBy b.transactions l.pool = true) (address : String) :
    (l.extend b).exact address =
      l.exact address + (paidTo address b.transactions + minted address [b] : Nat) := by
  have hp : paidBy address (l.extend b).holdings = paidBy address l.holdings :=
    paidBy_perm (holdings_extend hn hb)
  have hh : history (l.extend b).chain = history l.chain ++ b.transactions :=
    history_append l.chain_ne_nil b
  have hm : mined (l.extend b).chain = mined l.chain ++ [b] := mined_append l.chain_ne_nil [b]
  unfold holdings at hp
  unfold exact Balance.exact
  rw [hp, hh, hm, paidTo_append, minted_append]
  omega

theorem Solvent.enqueue (h : l.Solvent) {t : Transaction}
    (ha : Admission.Admissible t l.chain l.pool) : (l.enqueue t).Solvent := by
  intro address
  have hs := h address
  rw [exact_enqueue]
  by_cases he : t.sender = address
  · subst he
    have hc := ha.covered
    have hr : Balance.raw t.sender l.chain l.pool ≤ l.exact t.sender := Balance.raw_le_exact hs
    rw [if_pos rfl]
    omega
  · rw [if_neg he]
    omega

theorem Solvent.extend (h : l.Solvent) {b : Block} (hn : (l.pool.map identity).Nodup)
    (hb : Acceptance.backedBy b.transactions l.pool = true) : (l.extend b).Solvent := by
  intro address
  have hs := h address
  rw [exact_extend hn hb]
  omega

theorem solvent_withDifficulty (difficulty : Nat) : (withDifficulty difficulty).Solvent :=
  fun _ => Int.le_refl 0

theorem solvent_run (difficulty : Nat) (calls : List Call) :
    ((withDifficulty difficulty).run calls).Solvent := by
  have h : (withDifficulty difficulty).Solvent ∧ (withDifficulty difficulty).Unrepeated :=
    ⟨solvent_withDifficulty difficulty, (accounted_withDifficulty difficulty).unrepeated⟩
  refine (run_keeps (P := fun l => l.Solvent ∧ l.Unrepeated) ?_ ?_ h calls).1
  · intro l t ⟨hs, hn⟩ ha
    exact ⟨hs.enqueue ha, hn.enqueue ha⟩
  · intro l b now ⟨hs, hn⟩ ha
    exact ⟨hs.extend hn.pool_nodup ha.backed, hn.extend ha.backed⟩

/-- After any run, the coins of every address can be told: they are not negative, so no overspend
was let in, and they are never more than the exact balance, even where the kept sums have saturated.
-/
theorem coinsOf_run_eq_ok (difficulty : Nat) (calls : List Call) (address : String) :
    ∃ coins, ((withDifficulty difficulty).run calls).coinsOf address = .ok coins ∧ 0 ≤ coins ∧
      coins ≤ ((withDifficulty difficulty).run calls).exact address := by
  have hs := solvent_run difficulty calls address
  have hr := Balance.raw_nonneg hs
  refine ⟨_, ?_, hr, Balance.raw_le_exact hs⟩
  rw [coinsOf, WorkLedger.coinsOf, if_neg (Int.not_lt.mpr hr)]

end WorkLedger.Ledger
