import Mathlib.Data.List.Perm.Subperm
import WorkLedger.Ledger

/-! Blocks against the pool. The pool is put into a stock, and the transactions of the block are
taken out of it one by one. What is left of a stock and what was taken out of it add up, for each
identity, so a block is backed by the pool when its transactions, taken by identity and with their
multiplicity, are among the pending ones. What it leaves of a pool without repeats is exactly the
rest: taken and left together are the pool again. -/

namespace WorkLedger

open Transaction (Identity identity)

theorem Transaction.occursIn_iff {t : Transaction} {ts : List Transaction} :
    t.occursIn ts = true ↔ t.identity ∈ ts.map identity := by
  simp only [Transaction.occursIn, List.any_eq_true, beq_iff_eq, List.mem_map]

theorem count_map_cons (t : Transaction) (ts : List Transaction) (i : Identity) :
    ((t :: ts).map identity).count i = [t.identity].count i + (ts.map identity).count i := by
  rw [← List.count_append]
  rfl

namespace Stock

variable {stock rest : Stock} {t : Transaction} {ts : List Transaction}

theorem left_empty (i : Identity) : empty.left i = 0 := rfl

theorem left_set (stock : Stock) (i j : Identity) (n : Nat) :
    (stock.set i n).left j = if i = j then n else stock.left j := by
  rw [left, count?, set, List.lookup_cons]
  by_cases h : i = j
  · rw [if_pos h, h, beq_self_eq_true]
    rfl
  · rw [if_neg h, beq_false_of_ne (Ne.symm h)]
    rfl

theorem left_put (stock : Stock) (t : Transaction) (i : Identity) :
    (stock.put t).left i = stock.left i + [t.identity].count i := by
  rw [put, left_set, List.count_singleton]
  by_cases h : t.identity = i
  · rw [if_pos h, h, if_pos (beq_self_eq_true i)]
  · rw [if_neg h, if_neg (by rwa [beq_iff_eq])]
    rfl

theorem left_foldl_put (stock : Stock) (ts : List Transaction) (i : Identity) :
    (ts.foldl put stock).left i = stock.left i + (ts.map identity).count i := by
  induction ts generalizing stock with
  | nil => rfl
  | cons t ts ih =>
    rw [List.foldl_cons, ih, left_put, count_map_cons, Nat.add_assoc]

/-- A stock holds what was put in. -/
theorem left_ofList (ts : List Transaction) (i : Identity) :
    (ofList ts).left i = (ts.map identity).count i := by
  rw [ofList, left_foldl_put, left_empty, Nat.zero_add]

theorem take?_eq_some_iff : stock.take? t = some rest ↔
    ∃ n, stock.left t.identity = n + 1 ∧ rest = stock.set t.identity n := by
  rw [take?, left]
  cases stock.count? t.identity with
  | none => simp
  | some n =>
    cases n with
    | zero => simp
    | succ n => simp [eq_comm]

/-- Something can be taken as long as something is left of it. -/
theorem exists_take? (h : 0 < stock.left t.identity) : ∃ rest, stock.take? t = some rest := by
  obtain ⟨n, hn⟩ := Nat.exists_eq_add_of_lt h
  exact ⟨_, take?_eq_some_iff.mpr ⟨n, by rw [hn, Nat.zero_add], rfl⟩⟩

/-- Taking one out undoes putting it in. -/
theorem left_take? (h : stock.take? t = some rest) (i : Identity) :
    stock.left i = rest.left i + [t.identity].count i := by
  obtain ⟨n, hn, rfl⟩ := take?_eq_some_iff.mp h
  rw [left_set, List.count_singleton]
  by_cases hi : t.identity = i
  · rw [if_pos hi, ← hi, hn, if_pos (beq_self_eq_true _)]
  · rw [if_neg hi, if_neg (by rwa [beq_iff_eq])]
    rfl

/-- What is left and what was taken add up to what there was. -/
theorem left_takeAll? (h : stock.takeAll? ts = some rest) (i : Identity) :
    stock.left i = rest.left i + (ts.map identity).count i := by
  induction ts generalizing stock with
  | nil =>
    cases h
    rfl
  | cons t ts ih =>
    obtain ⟨next, ht, hr⟩ := Option.bind_eq_some_iff.mp h
    rw [left_take? ht, ih hr, count_map_cons]
    omega

/-- The stop at a missing one is never met where each is there as often as it is asked for. -/
theorem exists_takeAll? (h : ∀ i, (ts.map identity).count i ≤ stock.left i) :
    ∃ rest, stock.takeAll? ts = some rest := by
  induction ts generalizing stock with
  | nil => exact ⟨stock, rfl⟩
  | cons t ts ih =>
    simp only [count_map_cons] at h
    have ht : 0 < stock.left t.identity := by
      have := h t.identity
      rw [List.count_singleton_self] at this
      omega
    obtain ⟨next, hn⟩ := exists_take? ht
    -- Taking the first lowers both sides by the same, so the others find enough in what is left.
    have hts (i : Identity) : (ts.map identity).count i ≤ next.left i := by
      have := h i
      rw [left_take? hn] at this
      omega
    obtain ⟨rest, hr⟩ := ih hts
    exact ⟨rest, Option.bind_eq_some_iff.mpr ⟨next, hn, hr⟩⟩

theorem isSome_takeAll?_iff : (stock.takeAll? ts).isSome = true ↔
    ∀ i, (ts.map identity).count i ≤ stock.left i := by
  rw [Option.isSome_iff_exists]
  refine ⟨fun ⟨rest, h⟩ i => ?_, exists_takeAll?⟩
  rw [left_takeAll? h]
  exact Nat.le_add_left _ _

end Stock

namespace Acceptance

theorem backedBy_iff_count {ts pool : List Transaction} : backedBy ts pool = true ↔
    ∀ i, (ts.map identity).count i ≤ (pool.map identity).count i := by
  simp only [backedBy, Stock.isSome_takeAll?_iff, Stock.left_ofList]

/-- The check is inclusion of multisets of identities, whatever the order of either list. -/
theorem backedBy_iff {ts pool : List Transaction} :
    backedBy ts pool = true ↔ (ts.map identity).Subperm (pool.map identity) := by
  rw [backedBy_iff_count, List.subperm_ext_iff]
  refine ⟨fun h i _ => h i, fun h i => ?_⟩
  by_cases hi : i ∈ ts.map identity
  · exact h i hi
  · rw [List.count_eq_zero_of_not_mem hi]
    exact Nat.zero_le _

/-- Behind every transaction of a backed block stands a pending one that is the same. -/
theorem exists_pending {ts pool : List Transaction} (h : backedBy ts pool = true)
    {t : Transaction} (ht : t ∈ ts) : ∃ u ∈ pool, u.identity = t.identity := by
  have hs := (backedBy_iff.mp h).subset
  exact List.mem_map.mp (hs (List.mem_map_of_mem ht))

/-- Neither the order of the two lists nor the keys in them matter. -/
theorem backedBy_congr {ts us pool queue : List Transaction}
    (ht : (us.map identity).Perm (ts.map identity))
    (hp : (queue.map identity).Perm (pool.map identity)) :
    backedBy us queue = backedBy ts pool := by
  rw [Bool.eq_iff_iff, backedBy_iff_count, backedBy_iff_count]
  simp only [ht.count_eq, hp.count_eq]

/-- More pending transactions back all that fewer do. -/
theorem backedBy_mono {ts pool queue : List Transaction}
    (hp : (pool.map identity).Subperm (queue.map identity)) (h : backedBy ts pool = true) :
    backedBy ts queue = true :=
  backedBy_iff.mpr ((backedBy_iff.mp h).trans hp)

/-- A block is backed exactly if it has no transaction more often than the pool has it. So the
answer is the same for any order of either list, and a backed block stays backed while the pool
grows. -/
theorem backedBy_inclusion (b : Block) (pool : List Transaction) :
    (backedBy b.transactions pool = true ↔
      ∀ i : Identity, (b.transactions.map identity).count i ≤ (pool.map identity).count i) ∧
    (∀ (c : Block) (queue : List Transaction),
      (c.transactions.map identity).Perm (b.transactions.map identity) →
      (queue.map identity).Perm (pool.map identity) →
      backedBy c.transactions queue = backedBy b.transactions pool) ∧
    (∀ queue : List Transaction, (pool.map identity).Subperm (queue.map identity) →
      backedBy b.transactions pool = true → backedBy b.transactions queue = true) :=
  ⟨backedBy_iff_count, fun _ _ hc hq => backedBy_congr hc hq, fun _ hq h => backedBy_mono hq h⟩

namespace Repeats

def early : Transaction := ⟨⟨"FC", "SC", 30⟩, 1, [1], [4]⟩
def late : Transaction := { early with timestamp := 2 }

/-- The early one under another key. -/
def copy : Transaction := { early with publicKey := [5] }

def carrying (ts : List Transaction) : Block := { Block.genesis with height := 1, transactions := ts }

end Repeats

open Repeats in
/-- Of a pool with repeats a block may take them all, a copy under another key among them, but none
of them more often than it is pending. -/
theorem backedBy_inclusion_repeats :
    ([copy, late, early].map identity).Perm ([early, copy, late].map identity) ∧
    ([late, early, early].map identity).Perm ([early, late, early].map identity) ∧
    ([early, late, early].map identity).Subperm ([late, early, late, early].map identity) ∧
    backedBy (carrying [early, copy, late]).transactions [early, late, early] = true ∧
    backedBy (carrying [copy, late, early]).transactions [late, early, early] = true ∧
    backedBy (carrying [early, copy, late]).transactions [late, early, late, early] = true ∧
    backedBy (carrying [early, copy, early]).transactions [early, late, early] = false := by
  have hc : ([copy, late, early].map identity).Perm ([early, copy, late].map identity) := by decide
  have hq : ([late, early, early].map identity).Perm ([early, late, early].map identity) := by
    decide
  have hg : ([early, late, early].map identity).Subperm ([late, early, late, early].map identity) :=
    (List.sublist_cons_self _ _).subperm
  have hb : backedBy (carrying [early, copy, late]).transactions [early, late, early] = true := by
    decide
  obtain ⟨-, same, more⟩ := backedBy_inclusion (carrying [early, copy, late]) [early, late, early]
  obtain ⟨counted, -, -⟩ := backedBy_inclusion (carrying [early, copy, early]) [early, late, early]
  refine ⟨hc, hq, hg, hb, ?_, more _ hg hb, ?_⟩
  · exact (same (carrying [copy, late, early]) _ hc hq).trans hb
  · rw [← Bool.not_eq_true, counted]
    intro h
    exact absurd (h early.identity) (by decide)

end Acceptance

namespace Pool

variable {pool : Pool} {b : Block}

theorem map_removeIncluded (pool : Pool) (b : Block) :
    (pool.removeIncluded b).map identity =
      (pool.map identity).filter fun i => !decide (i ∈ b.transactions.map identity) := by
  have known (t : Transaction) :
      t.occursIn b.transactions = decide (t.identity ∈ b.transactions.map identity) := by
    rw [Bool.eq_iff_iff, Transaction.occursIn_iff, decide_eq_true_eq]
  rw [removeIncluded, List.filter_map]
  congr 1
  exact List.filter_congr fun t _ => by rw [known, Function.comp_apply]

/-- A block takes part of the pool and leaves the rest. -/
theorem removeIncluded_perm (hn : (pool.map identity).Nodup)
    (hb : Acceptance.backedBy b.transactions pool = true) :
    (b.transactions.map identity ++ (pool.removeIncluded b).map identity).Perm
      (pool.map identity) := by
  have hs := Acceptance.backedBy_iff.mp hb
  have hd : (b.transactions.map identity).Nodup := by
    obtain ⟨taken, hp, hl⟩ := hs
    exact hp.nodup_iff.mp (hn.sublist hl)
  rw [map_removeIncluded]
  have ht : (b.transactions.map identity).Perm
      ((pool.map identity).filter fun i => decide (i ∈ b.transactions.map identity)) := by
    rw [List.perm_ext_iff_of_nodup hd (hn.filter _)]
    intro i
    rw [List.mem_filter, decide_eq_true_eq]
    exact ⟨fun hi => ⟨hs.subset hi, hi⟩, fun hi => hi.2⟩
  exact (ht.append_right _).trans (List.filter_append_perm _ _)

theorem mem_of_mem_removeIncluded {t : Transaction} (h : t ∈ pool.removeIncluded b) : t ∈ pool :=
  List.mem_of_mem_filter h

end Pool

end WorkLedger
