import WorkLedger.Proofs.Balance.Saturation

/-! Exact balances. Beside the balance that is kept in three saturating sums stands the one that has
no bound. As long as the exact balance is not negative, the kept one is not negative either and
never more than it: coins may be lost to saturation, but none appear. -/

namespace WorkLedger

/-- What these transactions move together. -/
def volume (ts : List Transaction) : Nat := (ts.map (·.amount.toNat)).sum

def paidTo (address : String) (ts : List Transaction) : Nat :=
  volume (ts.filter (·.receiver == address))

def paidBy (address : String) (ts : List Transaction) : Nat :=
  volume (ts.filter (·.sender == address))

/-- The rewards of an address in these blocks. -/
def minted (address : String) (blocks : List Block) : Nat :=
  (((blocks.filterMap (·.reward)).filter (·.miner == address)).map (·.amount.toNat)).sum

/-- The balance of an address without any bound. -/
def Balance.exact (address : String) (chain : List Block) (pool : List Transaction) : Int :=
  paidTo address (history chain) + minted address (mined chain) -
    paidBy address (history chain ++ pool)

variable {address : String}

theorem volume_append (ts us : List Transaction) : volume (ts ++ us) = volume ts + volume us := by
  rw [volume, List.map_append, List.sum_append, volume, volume]

theorem paidTo_append (ts us : List Transaction) :
    paidTo address (ts ++ us) = paidTo address ts + paidTo address us := by
  rw [paidTo, List.filter_append, volume_append, paidTo, paidTo]

theorem paidBy_append (ts us : List Transaction) :
    paidBy address (ts ++ us) = paidBy address ts + paidBy address us := by
  rw [paidBy, List.filter_append, volume_append, paidBy, paidBy]

theorem paidTo_cons (t : Transaction) (ts : List Transaction) :
    paidTo address (t :: ts) =
      (if t.receiver = address then t.amount.toNat else 0) + paidTo address ts := by
  by_cases h : t.receiver = address <;> simp [paidTo, volume, h]

theorem paidBy_cons (t : Transaction) (ts : List Transaction) :
    paidBy address (t :: ts) =
      (if t.sender = address then t.amount.toNat else 0) + paidBy address ts := by
  by_cases h : t.sender = address <;> simp [paidBy, volume, h]

@[simp] theorem paidTo_nil : paidTo address [] = 0 := rfl
@[simp] theorem paidBy_nil : paidBy address [] = 0 := rfl
@[simp] theorem minted_nil : minted address [] = 0 := rfl

theorem minted_append (bs cs : List Block) :
    minted address (bs ++ cs) = minted address bs + minted address cs := by
  simp [minted, List.filterMap_append, List.filter_append]

theorem minted_singleton {b : Block} {r : Reward} (h : b.reward = some r) :
    minted address [b] = if r.miner = address then r.amount.toNat else 0 := by
  by_cases hm : r.miner = address <;> simp [minted, h, hm]

/-- What an address pays depends on the identities alone, in any order: a copy under another key
pays the same. -/
theorem paidBy_perm {ts us : List Transaction}
    (h : (ts.map Transaction.identity).Perm (us.map Transaction.identity)) :
    paidBy address ts = paidBy address us := by
  have key : ∀ xs : List Transaction, paidBy address xs =
      (((xs.map Transaction.identity).filter (·.transfer.sender == address)).map
        (·.transfer.amount.toNat)).sum := by
    intro xs
    rw [List.filter_map, List.map_map]
    rfl
  rw [key ts, key us]
  exact ((h.filter _).map _).sum_eq

namespace Balance

variable {chain : List Block} {pool : List Transaction}

theorem exact_eq_sub_paidBy :
    exact address chain pool = exact address chain [] - paidBy address pool := by
  unfold exact
  rw [paidBy_append, paidBy_append, paidBy_nil]
  omega

theorem exact_append (h : chain ≠ []) (b : Block) :
    exact address (chain ++ [b]) [] = exact address chain [] + paidTo address b.transactions +
      minted address [b] - paidBy address b.transactions := by
  unfold exact
  rw [history_append h, mined_append h, List.append_nil, List.append_nil, paidTo_append,
    minted_append, paidBy_append]
  omega

theorem received_eq :
    received address chain = min Coins.greatest (paidTo address (history chain) : Nat) :=
  Coins.sum_eq_min Transaction.amount _

theorem rewards_eq :
    rewards address chain = min Coins.greatest (minted address (mined chain) : Nat) :=
  Coins.sum_eq_min Reward.amount _

theorem spent_eq :
    spent address chain pool = min Coins.greatest (paidBy address (history chain ++ pool) : Nat) :=
  Coins.sum_eq_min Transaction.amount _

/-- The kept balance in terms of exact sums. -/
theorem raw_eq : raw address chain pool =
    min Coins.greatest (paidTo address (history chain) + minted address (mined chain) : Nat) -
      min Coins.greatest (paidBy address (history chain ++ pool) : Nat) := by
  have hl := Coins.least_eq
  have hg := Coins.greatest_eq
  rw [raw, received_eq, rewards_eq, spent_eq, Coins.add, Coins.clamp_of_nonneg (by omega),
    Coins.sub, Coins.clamp_of_mem (by omega) (by omega)]
  omega

/-- The kept balance is negative exactly if the exact one is, but for an address that was paid so
much that saturation hides what it owes. -/
theorem raw_nonneg_iff : 0 ≤ raw address chain pool ↔ 0 ≤ exact address chain pool ∨
    Coins.greatest ≤ (paidTo address (history chain) + minted address (mined chain) : Nat) := by
  rw [raw_eq]
  unfold exact
  omega

theorem raw_nonneg (h : 0 ≤ exact address chain pool) : 0 ≤ raw address chain pool :=
  raw_nonneg_iff.mpr (.inl h)

/-- Saturation never overstates a balance that is not overdrawn. -/
theorem raw_le_exact (h : 0 ≤ exact address chain pool) :
    raw address chain pool ≤ exact address chain pool := by
  rw [raw_eq]
  unfold exact at h ⊢
  omega

/-- Nothing is lost while what an address got fits. -/
theorem raw_eq_exact (h : 0 ≤ exact address chain pool)
    (hf : (paidTo address (history chain) + minted address (mined chain) : Nat) ≤ Coins.greatest) :
    raw address chain pool = exact address chain pool := by
  rw [raw_eq]
  unfold exact at h ⊢
  omega

end Balance

end WorkLedger
