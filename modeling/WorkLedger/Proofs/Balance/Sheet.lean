import Mathlib.Algebra.Order.BigOperators.Group.List
import WorkLedger.BalanceSheet
import WorkLedger.Proofs.Balance.Exact

/-! Balance sheets against exact balances. A sheet is updated transaction by transaction with
saturating steps. While its senders are covered and twice its total fits into the greatest number,
no step saturates: the sheet shows exact balances, and transfers leave their total alone. -/

namespace WorkLedger.BalanceSheet

/-! ## Entries -/

theorem lookup_cons_ite (a b : String) (v : Int) (es : List (String × Int)) :
    ((b, v) :: es).lookup a = if a = b then some v else es.lookup a := by
  by_cases h : a = b
  · rw [if_pos h, h, List.lookup_cons_self]
  · rw [if_neg h, List.lookup_cons, beq_false_of_ne h]

theorem lookup_updateEntries (a b : String) (f : Int → Int) (es : List (String × Int)) :
    (updateEntries a f es).lookup b =
      if b = a then some (f ((es.lookup a).getD 0)) else es.lookup b := by
  induction es with
  | nil => rw [updateEntries, lookup_cons_ite]; rfl
  | cons e es ih =>
    obtain ⟨c, v⟩ := e
    by_cases hc : c = a
    · rw [updateEntries, if_pos hc, lookup_cons_ite, lookup_cons_ite, lookup_cons_ite,
        if_pos hc.symm, hc]
      by_cases hb : b = a
      · rw [if_pos hb, if_pos hb]; rfl
      · rw [if_neg hb, if_neg hb, if_neg hb]
    · rw [updateEntries, if_neg hc, lookup_cons_ite, ih, lookup_cons_ite, lookup_cons_ite,
        if_neg (Ne.symm hc)]
      by_cases hb : b = c
      · rw [if_pos hb, if_pos hb, if_neg fun ha => hc (hb.symm.trans ha)]
      · rw [if_neg hb, if_neg hb]

theorem get_update (sheet : BalanceSheet) (a b : String) (f : Int → Int) :
    (sheet.update a f).get b = if b = a then f (sheet.get a) else sheet.get b := by
  rw [get, update, lookup_updateEntries]
  by_cases h : b = a
  · rw [if_pos h, if_pos h]
    rfl
  · rw [if_neg h, if_neg h]
    rfl

theorem keys_updateEntries (a : String) (f : Int → Int) (es : List (String × Int)) :
    (updateEntries a f es).map Prod.fst =
      if a ∈ es.map Prod.fst then es.map Prod.fst else es.map Prod.fst ++ [a] := by
  induction es with
  | nil => rfl
  | cons e es ih =>
    obtain ⟨c, v⟩ := e
    by_cases hc : c = a
    · simp [updateEntries, hc]
    · rw [updateEntries, if_neg hc, List.map_cons, ih, List.map_cons]
      by_cases hm : a ∈ es.map Prod.fst
      · rw [if_pos hm, if_pos (List.mem_cons_of_mem _ hm)]
      · rw [if_neg hm, if_neg (List.not_mem_cons_of_ne_of_not_mem (Ne.symm hc) hm),
          List.cons_append]

theorem distinct_update {sheet : BalanceSheet} (h : (sheet.entries.map Prod.fst).Nodup) (a : String)
    (f : Int → Int) : ((sheet.update a f).entries.map Prod.fst).Nodup := by
  rw [update, keys_updateEntries]
  by_cases hm : a ∈ sheet.entries.map Prod.fst
  · rwa [if_pos hm]
  · rw [if_neg hm, (List.perm_append_singleton _ _).nodup_iff]
    exact List.nodup_cons.mpr ⟨hm, h⟩

def total (sheet : BalanceSheet) : Int := (sheet.entries.map Prod.snd).sum

theorem total_update (sheet : BalanceSheet) (a : String) (f : Int → Int) :
    (sheet.update a f).total = sheet.total - sheet.get a + f (sheet.get a) := by
  obtain ⟨es⟩ := sheet
  unfold total update get
  dsimp only
  induction es with
  | nil => simp [updateEntries]
  | cons e es ih =>
    obtain ⟨c, v⟩ := e
    by_cases hc : c = a
    · rw [updateEntries, if_pos hc, lookup_cons_ite, if_pos hc.symm, List.map_cons, List.sum_cons,
        List.map_cons, List.sum_cons, Option.getD_some]
      dsimp only
      omega
    · rw [updateEntries, if_neg hc, lookup_cons_ite, if_neg (Ne.symm hc), List.map_cons,
        List.sum_cons, ih, List.map_cons, List.sum_cons]
      omega

theorem get_of_mem {sheet : BalanceSheet} (h : (sheet.entries.map Prod.fst).Nodup)
    {e : String × Int} (he : e ∈ sheet.entries) : sheet.get e.1 = e.2 := by
  obtain ⟨es⟩ := sheet
  unfold get
  dsimp only at h he ⊢
  induction es with
  | nil => cases he
  | cons c es ih =>
    obtain ⟨hn, hd⟩ := List.nodup_cons.mp h
    rcases List.mem_cons.mp he with rfl | he
    · rw [List.lookup_cons_self]
      rfl
    · have hk : e.1 ≠ c.1 := fun hk => hn (hk ▸ List.mem_map_of_mem he)
      rw [lookup_cons_ite, if_neg hk]
      exact ih hd he

/-- An address has an entry with its balance, or its balance is zero. -/
theorem mem_or_get_eq_zero (sheet : BalanceSheet) (a : String) :
    (a, sheet.get a) ∈ sheet.entries ∨ sheet.get a = 0 := by
  unfold get
  cases hl : sheet.entries.lookup a with
  | none => exact .inr rfl
  | some v =>
    obtain ⟨before, after, hs, _⟩ := List.lookup_eq_some_iff.mp hl
    rw [hs]
    exact .inl (List.mem_append_right _ List.mem_cons_self)

/-! ## Sheets that show balances -/

/-- The sheet has one entry for an address at most, and shows these balances: none is negative, and
this is what they come to. -/
structure Shows (sheet : BalanceSheet) (balance : String → Int) (supply : Int) : Prop where
  distinct : (sheet.entries.map Prod.fst).Nodup
  get_eq : ∀ a, sheet.get a = balance a
  nonneg : ∀ a, 0 ≤ balance a
  total_eq : sheet.total = supply

theorem shows_empty : empty.Shows (fun _ => 0) 0 :=
  ⟨List.nodup_nil, fun _ => rfl, fun _ => Int.le_refl 0, rfl⟩

namespace Shows

variable {sheet : BalanceSheet} {balance : String → Int} {supply : Int}

theorem of_eq (h : sheet.Shows balance supply) {balance' : String → Int} {supply' : Int}
    (hb : ∀ a, balance' a = balance a) (hs : supply' = supply) : sheet.Shows balance' supply' := by
  obtain rfl : balance' = balance := funext hb
  rw [hs]
  exact h

theorem entry_nonneg (h : sheet.Shows balance supply) {e : String × Int} (he : e ∈ sheet.entries) :
    0 ≤ e.2 := by
  rw [← get_of_mem h.distinct he, h.get_eq]
  exact h.nonneg e.1

/-- One balance fits into the supply, since no other balance is negative. -/
theorem le_supply (h : sheet.Shows balance supply) (a : String) : balance a ≤ supply := by
  have hn : ∀ x ∈ sheet.entries.map Prod.snd, 0 ≤ x := by
    intro x hx
    obtain ⟨e, he, rfl⟩ := List.mem_map.mp hx
    exact h.entry_nonneg he
  rw [← h.get_eq, ← h.total_eq, total]
  rcases mem_or_get_eq_zero sheet a with hm | hz
  · exact List.single_le_sum hn _ (List.mem_map_of_mem hm)
  · rw [hz]
    exact List.sum_nonneg hn

theorem noneNegative_eq (h : sheet.Shows balance supply) : sheet.noneNegative = true := by
  rw [noneNegative, List.all_eq_true]
  exact fun e he => decide_eq_true (h.entry_nonneg he)

/-- Below the greatest number a credit is exact. -/
theorem credit (h : sheet.Shows balance supply) (a : String) (amount : UInt64)
    (hs : supply + amount.toNat ≤ Coins.greatest) :
    (sheet.credit a amount).Shows (fun b => balance b + (if a = b then amount.toNat else 0 : Nat))
      (supply + amount.toNat) := by
  have hl := Coins.least_eq
  have ha := h.le_supply a
  have hn := h.nonneg a
  have hc : Coins.add (sheet.get a) (Coins.ofAmount amount) = balance a + amount.toNat := by
    rw [h.get_eq, Coins.ofAmount_of_le (by omega), Coins.add,
      Coins.clamp_of_mem (by omega) (by omega)]
  refine ⟨distinct_update h.distinct a _, fun b => ?_, fun b => ?_, ?_⟩
  · rw [BalanceSheet.credit, get_update, hc]
    by_cases hb : b = a
    · rw [if_pos hb, if_pos hb.symm, hb]
    · rw [if_neg hb, if_neg (Ne.symm hb), h.get_eq]
      omega
  · have hb := h.nonneg b
    omega
  · rw [BalanceSheet.credit, total_update, hc, h.get_eq, h.total_eq]
    omega

/-- A debit that is covered is exact. -/
theorem debit (h : sheet.Shows balance supply) (a : String) {amount : UInt64}
    (ha : (amount.toNat : Int) ≤ balance a) (hs : supply ≤ Coins.greatest) :
    (sheet.debit a amount).Shows (fun b => balance b - (if a = b then amount.toNat else 0 : Nat))
      (supply - amount.toNat) := by
  have hl := Coins.least_eq
  have hb := h.le_supply a
  have hd : Coins.sub (sheet.get a) (Coins.ofAmount amount) = balance a - amount.toNat := by
    rw [h.get_eq, Coins.ofAmount_of_le (by omega), Coins.sub,
      Coins.clamp_of_mem (by omega) (by omega)]
  refine ⟨distinct_update h.distinct a _, fun b => ?_, fun b => ?_, ?_⟩
  · rw [BalanceSheet.debit, get_update, hd]
    by_cases hb : b = a
    · rw [if_pos hb, if_pos hb.symm, hb]
    · rw [if_neg hb, if_neg (Ne.symm hb), h.get_eq]
      omega
  · by_cases hb : a = b
    · rw [if_pos hb, ← hb]
      omega
    · rw [if_neg hb]
      have hn := h.nonneg b
      omega
  · rw [BalanceSheet.debit, total_update, hd, h.get_eq, h.total_eq]
    omega

/-- The receiver is paid first, so for a moment the sheet holds the amount twice. -/
theorem transfer (h : sheet.Shows balance supply) {t : Transaction}
    (ht : (t.amount.toNat : Int) ≤ balance t.sender) (hs : 2 * supply ≤ Coins.greatest) :
    (sheet.transfer t).Shows
      (fun a => balance a + (if t.receiver = a then t.amount.toNat else 0 : Nat) -
        (if t.sender = a then t.amount.toNat else 0 : Nat)) supply := by
  have hm := h.le_supply t.sender
  have hc := h.credit t.receiver t.amount (by omega)
  exact (hc.debit t.sender (by omega) (by omega)).of_eq (fun _ => rfl) (by omega)

/-- A list of transactions whose senders could pay all of them from the start. Whatever the order,
no balance passes below zero on the way, as nobody counts on what comes in. -/
theorem transferAll (h : sheet.Shows balance supply) {ts : List Transaction}
    (ht : ∀ a, (paidBy a ts : Int) ≤ balance a) (hs : 2 * supply ≤ Coins.greatest) :
    (sheet.transferAll ts).Shows (fun a => balance a + paidTo a ts - paidBy a ts) supply := by
  induction ts generalizing sheet balance with
  | nil =>
    refine h.of_eq (fun a => ?_) rfl
    rw [paidTo_nil, paidBy_nil]
    omega
  | cons t ts ih =>
    have hf : (t.amount.toNat : Int) ≤ balance t.sender := by
      have hp := ht t.sender
      rw [paidBy_cons, if_pos rfl] at hp
      omega
    -- What is received only adds, so the rest stays covered.
    have hr := ih (h.transfer hf hs) fun a => by
      have hp := ht a
      rw [paidBy_cons] at hp
      omega
    refine hr.of_eq (fun a => ?_) rfl
    rw [paidTo_cons, paidBy_cons]
    omega

/-- What a covered block does to balances and to the supply. -/
theorem apply (h : sheet.Shows balance supply) {b : Block} {r : Reward} (hr : b.reward = some r)
    (ht : ∀ a, (paidBy a b.transactions : Int) ≤ balance a) (hs : 2 * supply ≤ Coins.greatest)
    (hm : supply + r.amount.toNat ≤ Coins.greatest) :
    (sheet.apply b).Shows
      (fun a => balance a + paidTo a b.transactions + minted a [b] - paidBy a b.transactions)
      (supply + r.amount.toNat) := by
  have hc := (h.transferAll ht hs).credit r.miner r.amount hm
  rw [BalanceSheet.apply, hr]
  refine hc.of_eq (fun a => ?_) rfl
  rw [minted_singleton hr]
  omega

end Shows

/-! ## Coverage -/

theorem distinct_foldl_credit (ts : List Transaction) {sheet : BalanceSheet}
    (h : (sheet.entries.map Prod.fst).Nodup) :
    ((ts.foldl (fun sheet t => sheet.credit t.sender t.amount) sheet).entries.map
      Prod.fst).Nodup := by
  induction ts generalizing sheet with
  | nil => exact h
  | cons t ts ih => exact ih (distinct_update h t.sender _)

theorem distinct_outgoings (ts : List Transaction) : ((outgoings ts).entries.map Prod.fst).Nodup :=
  distinct_foldl_credit ts List.nodup_nil

theorem get_foldl_credit (ts : List Transaction) {sheet : BalanceSheet} (spent : String → Nat)
    (h : ∀ a, sheet.get a = min Coins.greatest (spent a)) (a : String) :
    (ts.foldl (fun sheet t => sheet.credit t.sender t.amount) sheet).get a =
      min Coins.greatest ((spent a + paidBy a ts : Nat) : Int) := by
  induction ts generalizing sheet spent with
  | nil => exact h a
  | cons t ts ih =>
    rw [List.foldl_cons, ih fun a => spent a + if t.sender = a then t.amount.toNat else 0,
      paidBy_cons, Nat.add_assoc]
    intro b
    rw [credit, get_update, h, Coins.add_min_ofAmount, h]
    by_cases hb : b = t.sender
    · rw [if_pos hb, if_pos hb.symm, hb]
    · rw [if_neg hb, if_neg (Ne.symm hb), Nat.add_zero]

theorem get_outgoings (ts : List Transaction) (a : String) :
    (outgoings ts).get a = min Coins.greatest (paidBy a ts) := by
  have hg := Coins.greatest_eq
  rw [outgoings, get_foldl_credit ts (fun _ => 0) (fun _ => by rw [hg]; rfl), Nat.zero_add]

/-- A block is covered if no address pays more in it than it has on the sheet. -/
theorem covers_iff {sheet : BalanceSheet} (hn : ∀ a, 0 ≤ sheet.get a) {b : Block} :
    sheet.covers b = true ↔
      ∀ a, min Coins.greatest (paidBy a b.transactions) ≤ sheet.get a := by
  rw [covers, List.all_eq_true]
  constructor
  · intro h a
    rw [← get_outgoings]
    rcases mem_or_get_eq_zero (outgoings b.transactions) a with hm | hz
    · exact of_decide_eq_true (h _ hm)
    · rw [hz]
      exact hn a
  · intro h e he
    rw [decide_eq_true_eq, ← get_of_mem (distinct_outgoings _) he, get_outgoings]
    exact h e.1

theorem Shows.covers_eq {sheet : BalanceSheet} {balance : String → Int} {supply : Int}
    (h : sheet.Shows balance supply) {b : Block}
    (ht : ∀ a, (paidBy a b.transactions : Int) ≤ balance a) : sheet.covers b = true := by
  refine (covers_iff fun a => ?_).mpr fun a => ?_
  · rw [h.get_eq]
    exact h.nonneg a
  · rw [h.get_eq]
    exact Int.le_trans (Int.min_le_right _ _) (ht a)

end WorkLedger.BalanceSheet
