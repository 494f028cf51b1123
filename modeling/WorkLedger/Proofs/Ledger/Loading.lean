import WorkLedger.Proofs.Ledger.SelfConsistency

/-! Loading. A strict load checks the chain that it takes, and a chain that it does not take makes
it start over with nothing pending. It never looks at the pool, so what was pending on one chain is
pending on the next one, whether that chain covers it or has it already. -/

namespace WorkLedger

/-- What may be pending on a chain: nothing that is on it, and from each address no more than it has
there, unless it was paid so much that the sums have saturated. -/
structure Carries (chain : List Block) (pool : List Transaction) : Prop where
  fresh : ∀ t ∈ pool, t.occursIn (history chain) = false
  covered : ∀ a, (paidBy a pool : Int) ≤ Balance.exact a chain [] ∨
    Coins.greatest ≤ (paidTo a (history chain) + minted a (mined chain) : Nat)

theorem Carries.nil {chain : List Block} {initial : Nat} (h : verifyChain chain initial = true) :
    Carries chain [] where
  fresh := fun _ ht => absurd ht List.not_mem_nil
  covered := fun a => .inl (Balance.exact_nonneg_of_verifyChain h a)

theorem coinsOf_ok_iff {address : String} {chain : List Block} {pool : List Transaction} :
    (∃ coins, coinsOf address chain pool = .ok coins) ↔
      (paidBy address pool : Int) ≤ Balance.exact address chain [] ∨
        Coins.greatest ≤ (paidTo address (history chain) + minted address (mined chain) : Nat) := by
  have he : 0 ≤ Balance.exact address chain pool ↔
      (paidBy address pool : Int) ≤ Balance.exact address chain [] := by
    rw [Balance.exact_eq_sub_paidBy]
    omega
  rw [← he, ← Balance.raw_nonneg_iff, coinsOf]
  by_cases h : Balance.raw address chain pool < 0
  · rw [if_pos h]
    constructor
    · rintro ⟨_, hc⟩
      cases hc
    · exact fun hr => absurd h (Int.not_lt.mpr hr)
  · rw [if_neg h]
    exact ⟨fun _ => Int.not_lt.mp h, fun _ => ⟨_, rfl⟩⟩

namespace Ledger

variable {l : Ledger} {blocks : List Block}

/-- The coins of every address can be told, and nothing that is pending is on the chain. -/
structure Sound (l : Ledger) : Prop where
  told : ∀ address, ∃ coins, l.coinsOf address = .ok coins
  fresh : ∀ t ∈ l.pool, t.occursIn (history l.chain) = false

theorem sound_iff_carries : l.Sound ↔ Carries l.chain l.pool where
  mp h := ⟨h.fresh, fun a => coinsOf_ok_iff.mp (h.told a)⟩
  mpr h := ⟨fun a => coinsOf_ok_iff.mpr (h.covered a), h.fresh⟩

theorem accepts_strict (l : Ledger) (blocks : List Block) :
    l.accepts blocks true = verifyChain blocks l.initial.zeros := by
  cases blocks with
  | nil => rfl
  | cons b rest => rfl

theorem load_of_accepts {strict : Bool} (h : l.accepts blocks strict = true) :
    (l.load blocks strict).chain = blocks ∧ (l.load blocks strict).pool = l.pool := by
  rw [load, dif_pos h]
  exact ⟨rfl, rfl⟩

theorem load_of_not_accepts {strict : Bool} (h : ¬ l.accepts blocks strict = true) :
    (l.load blocks strict).chain = [Block.genesis] ∧ (l.load blocks strict).pool = [] := by
  rw [load, dif_neg h]
  exact ⟨rfl, rfl⟩

theorem carries_load (l : Ledger) (blocks : List Block) :
    Carries (l.load blocks true).chain [] := by
  by_cases h : l.accepts blocks true = true
  · rw [(load_of_accepts h).1]
    rw [accepts_strict] at h
    exact .nil h
  · have hg : verifyChain [Block.genesis] 0 = true := rfl
    rw [(load_of_not_accepts h).1]
    exact .nil hg

/-- After a strict load, the chain is one on which the coins of every address can be told. With the
pool, the ledger is sound if the load was rejected, and else exactly if the chain that was taken
carries what was pending before. -/
theorem sound_load_iff (l : Ledger) (blocks : List Block) :
    (∀ a, ∃ coins, WorkLedger.coinsOf a (l.load blocks true).chain [] = .ok coins) ∧
      ((l.load blocks true).Sound ↔
        (l.accepts blocks true = true → Carries blocks l.pool)) := by
  refine ⟨fun a => coinsOf_ok_iff.mpr ((carries_load l blocks).covered a), ?_⟩
  rw [sound_iff_carries]
  by_cases h : l.accepts blocks true = true
  · rw [(load_of_accepts h).1, (load_of_accepts h).2]
    exact ⟨fun hc _ => hc, fun hc => hc h⟩
  · have hc := carries_load l blocks
    rw [(load_of_not_accepts h).2]
    exact ⟨fun _ ha => absurd ha h, fun _ => hc⟩

open KeySwap in
/-- A payment is pending. Chains are taken on which its sender has nothing, or has paid already, and
it stays pending. -/
theorem load_keeps_pending :
    let l := (withDifficulty 2).run [.append funding 1600000000000, .submit payment]
    (l.accepts [Block.genesis] true = true ∧
      (l.load [Block.genesis] true).coinsOf payment.sender =
        .error (.negativeBalance payment.sender (-30))) ∧
    (l.accepts (settled payment.publicKey) true = true ∧
      payment ∈ (l.load (settled payment.publicKey) true).pool ∧
      payment.occursIn (history (l.load (settled payment.publicKey) true).chain) = true) := by
  intro l
  have hl : l = funded.enqueue payment := run_pending
  have hg : (funded.enqueue payment).accepts [Block.genesis] true = true := rfl
  have hs : (funded.enqueue payment).accepts (settled payment.publicKey) true = true := by
    rw [accepts_strict]
    exact verifyChain_settled payment_admissible.signed
  rw [hl]
  refine ⟨⟨hg, ?_⟩, hs, ?_, ?_⟩
  · have hr : Balance.raw payment.sender [Block.genesis] (funded.enqueue payment).pool = -30 := by
      decide +kernel
    rw [coinsOf, (load_of_accepts hg).1, (load_of_accepts hg).2, WorkLedger.coinsOf, hr]
    exact if_pos (by decide)
  · rw [(load_of_accepts hs).2]
    exact List.mem_append_right _ List.mem_cons_self
  · rw [(load_of_accepts hs).1]
    decide

end Ledger

end WorkLedger
