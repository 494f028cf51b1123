import WorkLedger.Proofs.Balance.Sheet

/-! The running sheet against the whole chain. A sheet is moved block by block and may go below
zero; a balance is summed up from all blocks, in three sums that never do. While all that was ever
moved or minted fits into the greatest number, nothing is cut off in either, whether the blocks are
covered or not, and they come to the same for every address. -/

namespace WorkLedger

variable {address : String}

theorem volume_cons (t : Transaction) (ts : List Transaction) :
    volume (t :: ts) = t.amount.toNat + volume ts := by
  simp [volume]

theorem paidTo_le_volume (ts : List Transaction) : paidTo address ts ≤ volume ts := by
  induction ts with
  | nil => exact Nat.le_refl 0
  | cons t ts ih =>
    rw [paidTo_cons, volume_cons]
    split <;> omega

theorem paidBy_le_volume (ts : List Transaction) : paidBy address ts ≤ volume ts := by
  induction ts with
  | nil => exact Nat.le_refl 0
  | cons t ts ih =>
    rw [paidBy_cons, volume_cons]
    split <;> omega

/-! ## What blocks move -/

/-- The coins that a block mints, for whomever. -/
def Block.minting (b : Block) : Nat := (b.reward.map (·.amount.toNat)).getD 0

/-- All that these blocks move or mint, each amount once. -/
def turnover (blocks : List Block) : Nat :=
  (blocks.map fun b => volume b.transactions + b.minting).sum

theorem turnover_cons (b : Block) (blocks : List Block) :
    turnover (b :: blocks) = volume b.transactions + b.minting + turnover blocks := by
  rw [turnover, List.map_cons, List.sum_cons, turnover]

theorem minted_cons (b : Block) (blocks : List Block) :
    minted address (b :: blocks) = minted address [b] + minted address blocks :=
  minted_append [b] blocks

theorem minted_singleton_le (b : Block) : minted address [b] ≤ b.minting := by
  unfold Block.minting
  cases hr : b.reward with
  | none => simp [minted, hr]
  | some r =>
    rw [minted_singleton hr]
    simp only [Option.map_some, Option.getD_some]
    split <;> omega

/-- What an address received or was minted is part of the turnover. -/
theorem paidTo_add_minted_le_turnover (blocks : List Block) :
    paidTo address (blocks.flatMap (·.transactions)) + minted address blocks ≤ turnover blocks := by
  induction blocks with
  | nil => exact Nat.le_refl 0
  | cons b blocks ih =>
    have ht : paidTo address b.transactions ≤ volume b.transactions := paidTo_le_volume _
    have hm : minted address [b] ≤ b.minting := minted_singleton_le b
    rw [List.flatMap_cons, paidTo_append, minted_cons, turnover_cons]
    omega

theorem paidBy_le_turnover (blocks : List Block) :
    paidBy address (blocks.flatMap (·.transactions)) ≤ turnover blocks := by
  induction blocks with
  | nil => exact Nat.le_refl 0
  | cons b blocks ih =>
    have ht : paidBy address b.transactions ≤ volume b.transactions := paidBy_le_volume _
    rw [List.flatMap_cons, paidBy_append, turnover_cons]
    omega

namespace BalanceSheet

/-- The sheet after these blocks, whatever they are. -/
def applyAll (sheet : BalanceSheet) (blocks : List Block) : BalanceSheet := blocks.foldl apply sheet

/-- The sheet shows for every address what it got less what it gave, and neither of the two is more
than what was moved in all. -/
structure Records (sheet : BalanceSheet) (got given : String → Nat) (moved : Nat) : Prop where
  get_eq : ∀ a, sheet.get a = got a - given a
  got_le : ∀ a, got a ≤ moved
  given_le : ∀ a, given a ≤ moved

theorem records_empty : empty.Records (fun _ => 0) (fun _ => 0) 0 :=
  ⟨fun _ => rfl, fun _ => Nat.le_refl 0, fun _ => Nat.le_refl 0⟩

namespace Records

variable {sheet : BalanceSheet} {got given : String → Nat} {moved : Nat}

theorem of_eq (h : sheet.Records got given moved) {got' given' : String → Nat} {moved' : Nat}
    (hg : ∀ a, got' a = got a) (hs : ∀ a, given' a = given a) (hm : moved' = moved) :
    sheet.Records got' given' moved' := by
  obtain rfl : got' = got := funext hg
  obtain rfl : given' = given := funext hs
  rw [hm]
  exact h

/-- What is credited was moved now. -/
theorem credit (h : sheet.Records got given moved) (a : String) (amount : UInt64)
    (hm : (moved + amount.toNat : Nat) ≤ Coins.greatest) :
    (sheet.credit a amount).Records (fun b => got b + if a = b then amount.toNat else 0) given
      (moved + amount.toNat) := by
  have hl := Coins.least_eq
  have hg := Coins.greatest_eq
  have hgot := h.got_le a
  have hgiven := h.given_le a
  have hc : Coins.add (sheet.get a) (Coins.ofAmount amount) =
      (got a + amount.toNat : Nat) - given a := by
    rw [h.get_eq, Coins.ofAmount_of_le (by omega), Coins.add,
      Coins.clamp_of_mem (by omega) (by omega)]
    omega
  refine ⟨fun b => ?_, fun b => ?_, fun b => ?_⟩
  · rw [BalanceSheet.credit, get_update, hc]
    by_cases hb : b = a
    · rw [if_pos hb, if_pos hb.symm, hb]
    · rw [if_neg hb, if_neg (Ne.symm hb), h.get_eq, Nat.add_zero]
  · have hb := h.got_le b
    split <;> omega
  · have hb := h.given_le b
    omega

/-- What is debited was moved before, when it was credited. -/
theorem debit (h : sheet.Records got given moved) (a : String) (amount : UInt64)
    (ha : given a + amount.toNat ≤ moved) (hm : (moved : Int) ≤ Coins.greatest) :
    (sheet.debit a amount).Records got (fun b => given b + if a = b then amount.toNat else 0)
      moved := by
  have hl := Coins.least_eq
  have hg := Coins.greatest_eq
  have hgot := h.got_le a
  have hd : Coins.sub (sheet.get a) (Coins.ofAmount amount) =
      got a - (given a + amount.toNat : Nat) := by
    rw [h.get_eq, Coins.ofAmount_of_le (by omega), Coins.sub,
      Coins.clamp_of_mem (by omega) (by omega)]
    omega
  refine ⟨fun b => ?_, h.got_le, fun b => ?_⟩
  · rw [BalanceSheet.debit, get_update, hd]
    by_cases hb : b = a
    · rw [if_pos hb, if_pos hb.symm, hb]
    · rw [if_neg hb, if_neg (Ne.symm hb), h.get_eq, Nat.add_zero]
  · by_cases hb : a = b
    · rw [if_pos hb, ← hb]
      exact ha
    · rw [if_neg hb]
      exact h.given_le b

theorem transferAll (h : sheet.Records got given moved) (ts : List Transaction)
    (hm : (moved + volume ts : Nat) ≤ Coins.greatest) :
    (sheet.transferAll ts).Records (fun a => got a + paidTo a ts) (fun a => given a + paidBy a ts)
      (moved + volume ts) := by
  induction ts generalizing sheet got given moved with
  | nil => exact h
  | cons t ts ih =>
    rw [volume_cons] at hm
    have hsender := h.given_le t.sender
    have hc := h.credit t.receiver t.amount (by omega)
    have hd := hc.debit t.sender t.amount (by omega) (by omega)
    refine (ih hd (by omega)).of_eq (fun a => ?_) (fun a => ?_) ?_
    · rw [paidTo_cons]
      omega
    · rw [paidBy_cons]
      omega
    · rw [volume_cons]
      omega

theorem apply (h : sheet.Records got given moved) (b : Block)
    (hm : (moved + (volume b.transactions + b.minting) : Nat) ≤ Coins.greatest) :
    (sheet.apply b).Records (fun a => got a + (paidTo a b.transactions + minted a [b]))
      (fun a => given a + paidBy a b.transactions)
      (moved + (volume b.transactions + b.minting)) := by
  have ht := h.transferAll b.transactions (by omega)
  unfold BalanceSheet.apply
  cases hr : b.reward with
  | none =>
    refine ht.of_eq (fun a => ?_) (fun a => rfl) ?_
    · simp [minted, hr]
    · simp [Block.minting, hr]
  | some r =>
    have hmint : b.minting = r.amount.toNat := by simp [Block.minting, hr]
    have hc := ht.credit r.miner r.amount (by omega)
    refine hc.of_eq (fun a => ?_) (fun a => rfl) ?_
    · rw [minted_singleton hr]
      omega
    · rw [hmint]
      omega

theorem applyAll (h : sheet.Records got given moved) (blocks : List Block)
    (hm : (moved + turnover blocks : Nat) ≤ Coins.greatest) :
    (sheet.applyAll blocks).Records
      (fun a => got a + (paidTo a (blocks.flatMap (·.transactions)) + minted a blocks))
      (fun a => given a + paidBy a (blocks.flatMap (·.transactions)))
      (moved + turnover blocks) := by
  induction blocks generalizing sheet got given moved with
  | nil => exact h
  | cons b blocks ih =>
    rw [turnover_cons] at hm
    refine (ih (h.apply b (by omega)) (by omega)).of_eq (fun a => ?_) (fun a => ?_) ?_
    · rw [List.flatMap_cons, paidTo_append, minted_cons]
      omega
    · rw [List.flatMap_cons, paidBy_append]
      omega
    · rw [turnover_cons]
      omega

end Records

end BalanceSheet

/-- Carried along from nothing over the blocks on top of the first, the sheet shows what the chain
comes to for each address. Less what the address spends in the pool, it shows what chain and pool
come to. -/
theorem applyAll_eq_raw {chain : List Block} {pool : List Transaction}
    (h : (turnover (mined chain) + volume pool : Nat) ≤ Coins.greatest) (a : String) :
    let sheet := BalanceSheet.empty.applyAll (mined chain)
    sheet.get a = Balance.raw a chain [] ∧
      sheet.get a - (BalanceSheet.outgoings pool).get a = Balance.raw a chain pool := by
  intro sheet
  have hgot : paidTo a (history chain) + minted a (mined chain) ≤ turnover (mined chain) :=
    paidTo_add_minted_le_turnover (mined chain)
  have hgiven : paidBy a (history chain) ≤ turnover (mined chain) := paidBy_le_turnover _
  have hpool : paidBy a pool ≤ volume pool := paidBy_le_volume pool
  have hs : sheet.get a =
      (paidTo a (history chain) + minted a (mined chain) : Nat) - paidBy a (history chain) := by
    have hr := BalanceSheet.records_empty.applyAll (mined chain) (by omega)
    rw [hr.get_eq, Nat.zero_add, Nat.zero_add]
    rfl
  rw [hs, BalanceSheet.get_outgoings, Balance.raw_eq, Balance.raw_eq, List.append_nil,
    paidBy_append]
  omega

namespace Overdrawn

def pay (sender receiver : String) (amount : UInt64) : Transaction :=
  ⟨⟨sender, receiver, amount⟩, 0, [], []⟩

def block (reward : Option Reward) (transactions : List Transaction) : Block :=
  { Block.genesis with reward, transactions }

/-- A miner that pays itself and others, and a sender that never had anything. The first block is no
part of it. -/
def chain : List Block :=
  [block (some ⟨"SC", 9⟩) [pay "SC" "TC" 9],
    block (some ⟨"FC", 100⟩) [pay "FC" "FC" 40, pay "FC" "SC" 30, pay "SC" "FC" 10],
    block none [pay "TC" "SC" 7, pay "TC" "SC" 7]]

def pool : List Transaction := [pay "SC" "TC" 5, pay "TC" "TC" 1]

end Overdrawn

open Overdrawn in
/-- The sender that owes. -/
theorem applyAll_eq_raw_overdrawn :
    let sheet := BalanceSheet.empty.applyAll (mined chain)
    (turnover (mined chain) + volume pool : Nat) ≤ Coins.greatest ∧
      sheet.get "TC" = -14 ∧ sheet.get "TC" = Balance.raw "TC" chain [] ∧
      sheet.get "TC" - (BalanceSheet.outgoings pool).get "TC" = -15 ∧
      Balance.raw "TC" chain pool = -15 := by
  intro sheet
  have hm : (turnover (mined chain) + volume pool : Nat) ≤ Coins.greatest := by decide
  have hr : Balance.raw "TC" chain [] = -14 ∧ Balance.raw "TC" chain pool = -15 := by decide
  obtain ⟨hchain, hpool⟩ := applyAll_eq_raw hm "TC"
  exact ⟨hm, hchain.trans hr.1, hchain, hpool.trans hr.2, hr.2⟩

open Overdrawn in
/-- Beyond the greatest number the sheet loses one coin more than a sum does. -/
example :
    let most : UInt64 := .ofNat 9223372036854775807
    let chain := [block none [], block none [pay "FC" "SC" most, pay "FC" "SC" most]]
    (BalanceSheet.empty.applyAll (mined chain)).get "FC" = -9223372036854775808 ∧
      Balance.raw "FC" chain [] = -9223372036854775807 := by
  decide

end WorkLedger
