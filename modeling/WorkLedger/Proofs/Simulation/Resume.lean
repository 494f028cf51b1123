import WorkLedger.Proofs.Ledger.Loading
import WorkLedger.Proofs.Rules.Recount
import WorkLedger.Proofs.Store.Reload
import WorkLedger.Simulation.Simulator

/-! Resuming. What a simulator saves, the next one restores, and the ledger goes on as if it had
never stopped. Blocks are stored under their heights, so it matters that these are their places; the
difficulty is not stored at all, so it matters that the times lead to it; and a strict load verifies
what was never looked at that way before. The heights of blocks have four bytes, and a chain that
outgrows them is not restored. -/

namespace WorkLedger

open Binary.Lossless (Fits)

namespace Ledger

/-- What is not stored as it is: blocks stand at their heights, and their times lead to the
difficulty. -/
structure Counted (l : Ledger) : Prop where
  heights : l.chain.map (·.height.toNat) = List.range l.chain.length
  difficulty : l.difficulty = .ofChain l.chain

variable {l : Ledger} {b : Block} {now : Int64}

theorem counted_fresh : fresh.Counted := ⟨rfl, rfl⟩

/-- A block whose height is its place leaves all blocks at their heights. -/
theorem heights_extend (h : l.chain.map (·.height.toNat) = List.range l.chain.length)
    (hn : b.height.toNat = l.chain.length) :
    (l.extend b).chain.map (·.height.toNat) = List.range (l.extend b).chain.length := by
  change (l.chain ++ [b]).map (·.height.toNat) = List.range (l.chain ++ [b]).length
  rw [List.map_append, h, List.map_singleton, hn, List.length_append, List.length_singleton,
    List.range_succ]

theorem Counted.extend (h : l.Counted) (hz : (l.extend b).size < UInt32.size)
    (ha : l.Acceptable b now) : (l.extend b).Counted := by
  have hn : b.height.toNat = l.chain.length := ha.toNat_height hz
  refine ⟨heights_extend h.heights hn, ?_⟩
  change l.difficulty.adjust (l.chain ++ [b]) = .ofChain (l.chain ++ [b])
  rw [Difficulty.ofChain_snoc hn, h.difficulty]

theorem counted_run {calls : List Call} (hz : (fresh.run calls).size < UInt32.size) :
    (fresh.run calls).Counted := by
  refine run_keeps (P := fun l => l.size < UInt32.size → l.Counted) ?_ ?_
    (fun _ => counted_fresh) calls hz
  · intro l t h _ hz
    obtain ⟨hh, hd⟩ := h hz
    exact ⟨hh, hd⟩
  · intro l b now h ha hz
    -- The bound on the end of the run bounds every ledger on the way.
    exact (h (size_lt_of_extend hz)).extend hz ha

theorem ascending_of_heights {chain : List Block}
    (h : chain.map (·.height.toNat) = List.range chain.length) :
    chain.Pairwise fun a b => a.height.toNat < b.height.toNat := by
  have hr : (chain.map (·.height.toNat)).Pairwise (· < ·) := by
    rw [h]
    exact List.pairwise_lt_range
  exact List.pairwise_map.mp hr

/-- No call touches what strict verification starts from. -/
theorem initial_run (l : Ledger) (calls : List Call) : (l.run calls).initial = l.initial :=
  run_keeps (P := fun m => m.initial = l.initial) (fun _ _ h _ => h) (fun _ _ _ h _ => h) rfl calls

/-- A ledger that takes the chain and the pool of another one, and starts from the same difficulty,
is that ledger. -/
theorem loadPool_load_eq {start : Ledger} {strict : Bool} (hi : l.initial = start.initial)
    (hd : l.difficulty = .ofChain l.chain) (ha : start.accepts l.chain strict = true) :
    (start.load l.chain strict).loadPool l.pool = l := by
  rw [load, dif_pos ha, loadPool]
  cases l
  congr
  · exact hd.symm
  · exact hi.symm

theorem accepts_run {calls : List Call} (hc : fresh.Throughout CopiesPending calls)
    (hz : (fresh.run calls).size < UInt32.size) (strict : Bool) :
    fresh.accepts (fresh.run calls).chain strict = true := by
  have hv : verifyChain (fresh.run calls).chain (fresh.run calls).initial.zeros = true :=
    (verifyChain_run_iff hz).mpr (keysVerify_run hc)
  rw [show (fresh.run calls).initial = fresh.initial from initial_run _ calls] at hv
  have hn : (fresh.run calls).chain ≠ [] := (fresh.run calls).chain_ne_nil
  simp [accepts, hv, hn]

end Ledger

namespace Simulator

/-- No length in what is saved needs more than 64 bits, as is true of everything in memory. -/
structure Storable (l : Ledger) (book : WalletBook) : Prop where
  chain : ∀ b ∈ l.chain, Fits b
  pool : Fits l.pool
  wallets : ∀ e ∈ book.entries, Fits e.2

variable {s : Simulator} {book : WalletBook}

/-- After a save each tree holds what was written to it, whatever was there before. -/
theorem tree_save (s : Simulator) (book : WalletBook) (store : Store) {w : Write}
    (h : w ∈ s.saves book) :
    (s.save book store).tree w.name = OrderedMap.ofList w.entries := by
  have hd (store : Store) (blocks : List Block) (name : TreeName) :
      (store.writeDocument blocks).tree name = store.tree name := by
    cases name <;> rfl
  rw [save, hd, Store.writeAll]
  simp only [saves, List.mem_cons, List.not_mem_nil, or_false] at h ⊢
  simp only [List.foldl_cons, List.foldl_nil, Store.tree_write]
  rcases h with rfl | rfl | rfl <;> rfl

theorem loadChain_save (hl : s.ledger.Counted) (hf : ∀ b ∈ s.ledger.chain, Fits b)
    (store : Store) : (s.save book store).loadChain = .ok (some s.ledger.chain) := by
  have hb := tree_save s book store (w := .chain s.ledger.chain) (by simp [saves])
  exact Store.loadChain_eq_ok s.ledger.chain_ne_nil hb (Ledger.ascending_of_heights hl.heights) hf

theorem loadPool_save (hf : Fits s.ledger.pool) (store : Store) :
    (s.save book store).loadPool = .ok s.ledger.pool := by
  have hp := tree_save s book store (w := .pool s.ledger.pool) (by simp [saves])
  exact Store.loadPool_eq_ok hp hf

theorem restoreWallets_save (hf : ∀ e ∈ book.entries, Fits e.2) (store : Store) :
    restoreWallets (s.save book store) = book := by
  have hw := tree_save s book store (w := .wallets book) (by simp [saves])
  rw [restoreWallets, Store.loadWallets_eq_ok hw hf]

/-- What is restored from a save is no longer than heights can tell blocks apart. -/
theorem length_restore_save_le (next s : Simulator) (book : WalletBook) (store : Store)
    (hn : next.ledger.chain.length ≤ UInt32.size) :
    (next.restore (s.save book store)).ledger.chain.length ≤ UInt32.size := by
  have hc : (next.restore (s.save book store)).ledger.chain =
      (next.restoreChain (s.save book store)).2.chain := by
    rw [restore]
    dsimp only
    split
    · split <;> rfl
    · rfl
  rw [hc, restoreChain]
  split
  · rename_i blocks hl
    have hb := tree_save s book store (w := .chain s.ledger.chain) (by simp [saves])
    dsimp only
    by_cases ha : next.ledger.accepts blocks next.settings.strictLoading = true
    · rw [(Ledger.load_of_accepts ha).1]
      exact Store.length_of_loadChain hb hl
    · rw [(Ledger.load_of_not_accepts ha).1]
      decide
  · exact hn

/-- A chain that is read and accepted comes back with its pool. -/
theorem restore_eq {next : Simulator} {store : Store} {l : Ledger}
    (hb : store.loadChain = .ok (some l.chain)) (hp : store.loadPool = .ok l.pool)
    (ha : next.ledger.accepts l.chain next.settings.strictLoading = true)
    (hi : l.initial = next.ledger.initial) (hd : l.difficulty = .ofChain l.chain) :
    (next.restoreChain store).1 = true ∧ next.restore store = { next with ledger := l } := by
  have hr : next.restoreChain store =
      (true, next.ledger.load l.chain next.settings.strictLoading) := by
    rw [restoreChain, hb]
    dsimp only
    rw [ha]
  refine ⟨by rw [hr], ?_⟩
  rw [restore, hr]
  dsimp only
  rw [if_pos rfl, hp]
  dsimp only
  rw [Ledger.loadPool_load_eq hi hd ha]

/-- After any run in which accepted blocks carry what is pending as it is: whatever the settings and
whatever the store held before, the wallets come back from a save, and a new simulator accepts the
chain and has the whole ledger again. Only a chain that is too long for its heights does not come
back. -/
theorem restore_save_iff {calls : List Ledger.Call}
    (hc : Ledger.fresh.Throughout Ledger.CopiesPending calls) {book : WalletBook}
    (hs : Storable (Ledger.fresh.run calls) book) (before settings : Settings) (stopped : Bool)
    (store : Store) :
    let l := Ledger.fresh.run calls
    let saved := (Simulator.mk before l stopped).save book store
    let next := ofLedger settings .fresh
    restoreWallets saved = book ∧
      ((next.restoreChain saved).1 = true ∧ next.restore saved = ofLedger settings l ↔
        l.size < UInt32.size) := by
  intro l saved next
  refine ⟨restoreWallets_save hs.wallets store, ?_, ?_⟩
  -- A chain that came back was told apart by its heights.
  · rintro ⟨_, hr⟩
    have hn : Ledger.fresh.chain.length ≤ UInt32.size := by decide
    have hle : (next.restore saved).ledger.chain.length ≤ UInt32.size :=
      length_restore_save_le next ⟨before, l, stopped⟩ book store hn
    have hlen : (ofLedger settings l).ledger.chain.length = l.size + 1 := l.length_chain
    rw [hr, hlen] at hle
    exact hle
  · intro hz
    have hl : l.Counted := Ledger.counted_run hz
    have hb : saved.loadChain = .ok (some l.chain) := loadChain_save hl hs.chain store
    have hp : saved.loadPool = .ok l.pool := loadPool_save hs.pool store
    exact restore_eq hb hp (Ledger.accepts_run hc hz settings.strictLoading)
      (Ledger.initial_run _ calls) hl.difficulty

/-! ## A run that is paused -/

namespace Paused

open Ledger (Call fresh perform_append perform_submit)

/-- Mints the coins that are paid, with the work that a new ledger asks for. -/
def funding : Block :=
  { Ledger.KeySwap.funding with
    nonce := 588122
    hash := "00000167dc7384e2d4144191f99417a317f47a0c3d74deacc27122150d30f95d" }

/-- Carries the payment, half a second after it. -/
def settling : Block where
  height := 2
  timestamp := 1500000002000
  digest := "31f5da3f027b34792a675d4a1f5b997e6aea4ed91cf60fb8cb30191255813460"
  nonce := 402429
  previousHash := funding.hash
  hash := "00000e680ab17c627cd6d882a9abef689326c498a5ece2a09cd44f0f8493e7c6"
  minerName := "Miner 1"
  reward := some ⟨"TC", 100⟩
  transactions := [Ledger.KeySwap.payment]

/-- Carries nothing, half a minute later. -/
def second : Block where
  height := 2
  timestamp := 1500000031000
  digest := funding.digest
  nonce := 1701638
  previousHash := funding.hash
  hash := "000007b708af0d2e864d9c43eb4a120dc22f2d10af602a1f830ccd1e1f745f91"
  minerName := "Miner 1"
  reward := some ⟨"TC", 100⟩
  transactions := []

/-- Half a minute later again, which is too slow. -/
def third : Block :=
  { second with
    height := 3
    timestamp := 1500000061000
    nonce := 614989
    previousHash := second.hash
    hash := "000007e3277c846ffd2d2478b307cfbaf808ca05cff8bcdf41e683bcf13910ae" }

def calls : List Call :=
  [.append funding 1600000000000, .submit Ledger.KeySwap.payment, .append second 1600000000000,
    .append third 1600000000000]

def pending : Ledger := (fresh.extend funding).enqueue Ledger.KeySwap.payment

theorem fits : Acceptance.Fits funding Block.genesis 5 ∧ Acceptance.Fits settling funding 5 ∧
    Acceptance.Fits second funding 5 ∧ Acceptance.Fits third second 5 := by
  simp only [Acceptance.fits_iff]
  decide +kernel

theorem funding_acceptable : fresh.Acceptable funding 1600000000000 where
  next := rfl
  past := by decide
  fits := fits.1
  rewarded := rfl
  backed := rfl

theorem payment_admissible : Admission.Admissible Ledger.KeySwap.payment
    (fresh.extend funding).chain (fresh.extend funding).pool where
  unknown := by decide
  timely := by decide
  positive := by decide
  bounded := by decide
  covered := by decide
  signed := Ledger.KeySwap.payment_admissible.signed

theorem settling_acceptable : pending.Acceptable settling 1600000000000 where
  next := rfl
  past := by decide
  fits := fits.2.1
  rewarded := rfl
  backed := by decide

theorem second_acceptable : pending.Acceptable second 1600000000000 where
  next := rfl
  past := by decide
  fits := fits.2.2.1
  rewarded := rfl
  backed := rfl

theorem third_acceptable : (pending.extend second).Acceptable third 1600000000000 where
  next := rfl
  past := by decide
  fits := fits.2.2.2
  rewarded := rfl
  backed := rfl

theorem run_calls : fresh.run calls = (pending.extend second).extend third := by
  have hs : (fresh.extend funding).perform (.submit Ledger.KeySwap.payment) = pending :=
    (perform_submit payment_admissible).2
  rw [calls, Ledger.run, List.foldl_cons, (perform_append funding_acceptable).2, List.foldl_cons,
    hs, List.foldl_cons, (perform_append second_acceptable).2, List.foldl_cons,
    (perform_append third_acceptable).2, List.foldl_nil]

def wallets : WalletBook := .ofEntries [("Miner 0", ⟨[48, 129], Ledger.KeySwap.payment.publicKey⟩)]

end Paused

open Paused Ledger in
/-- A payment waits, blocks have been slow, and both are so again under strict loading. -/
theorem restore_save_paused :
    let l := fresh.run calls
    let saved := (Simulator.mk Settings.defaults l true).save wallets .empty
    let next := ofLedger { strictLoading := true } .fresh
    fresh.Throughout CopiesPending calls ∧ Storable l wallets ∧ l.size = 3 ∧
      l.pool = [KeySwap.payment] ∧ l.difficulty.zeros = 4 ∧ restoreWallets saved = wallets ∧
      (next.restoreChain saved).1 = true ∧
      next.restore saved = ofLedger { strictLoading := true } l := by
  have hn {l : Ledger} {c : Call} (h : c.carried = []) : l.CopiesPending c := by
    intro _ t ht
    rw [h] at ht
    cases ht
  have hc : fresh.Throughout CopiesPending calls := ⟨hn rfl, hn rfl, hn rfl, hn rfl, trivial⟩
  have hs : Storable (fresh.run calls) wallets := by
    rw [run_calls]
    exact ⟨by decide, by decide, by decide⟩
  have hd : (fresh.run calls).size = 3 ∧ (fresh.run calls).pool = [KeySwap.payment] ∧
      (fresh.run calls).difficulty.zeros = 4 := by
    rw [run_calls]
    decide
  obtain ⟨hsize, hpool, hzeros⟩ := hd
  obtain ⟨hw, hr⟩ := restore_save_iff hc hs Settings.defaults { strictLoading := true } true .empty
  obtain ⟨ha, he⟩ := hr.mpr (by rw [hsize]; decide)
  exact ⟨hc, hs, hsize, hpool, hzeros, hw, ha, he⟩

end Simulator

end WorkLedger
