import WorkLedger.Proofs.Ledger.Completeness
import WorkLedger.Proofs.Ledger.Extension

/-! Saving that stops half-way. The trees are written one after the other, each as a whole, and the
next simulator takes what it finds. Between the chain and the pool there is one point at which the
two belong to different runs: the new chain is there, and what waits is what waited before. All
other points leave the trees of one run together. -/

namespace WorkLedger

open Transaction (identity)
open Binary.Lossless (Fits)

/-! ## The pool of before on the chain of after -/

namespace Ledger

variable {l : Ledger}

/-- What a ledger holds, it holds after any run, pending or mined. -/
theorem mem_holdings_run (h : l.Unrepeated) (calls : List Call) {t : Transaction}
    (ht : t ∈ l.holdings) : t.identity ∈ (l.run calls).holdings.map identity := by
  refine (run_keeps (P := fun m => m.Unrepeated ∧ t.identity ∈ m.holdings.map identity) ?_ ?_
    ⟨h, List.mem_map_of_mem ht⟩ calls).2
  · rintro m u ⟨hn, hm⟩ ha
    refine ⟨hn.enqueue ha, ?_⟩
    rw [holdings_enqueue, List.map_append]
    exact List.mem_append_left _ hm
  · rintro m b now ⟨hn, hm⟩ ha
    exact ⟨hn.extend ha.backed, (holdings_extend hn.pool_nodup ha.backed).mem_iff.mpr hm⟩

/-- What waited before a run may wait on the chain after it exactly if none of it was mined: then
all of it still waits, and is covered with all that came later. -/
theorem Tidy.carries_run_iff (h : l.Tidy) (calls : List Call) :
    Carries (l.run calls).chain l.pool ↔
      ∀ t ∈ l.pool, t.occursIn (history (l.run calls).chain) = false := by
  refine ⟨Carries.fresh, fun hf => ⟨hf, fun a => .inl ?_⟩⟩
  have hpending : ∀ t ∈ l.pool, t.occursIn (l.run calls).pool = true := by
    intro t ht
    have hm := mem_holdings_run h.unrepeated calls (List.mem_append_right _ ht)
    have hn := hf t ht
    rw [← Bool.not_eq_true, Transaction.occursIn_iff] at hn
    rw [holdings, List.map_append, List.mem_append] at hm
    exact Transaction.occursIn_iff.mpr (hm.resolve_left hn)
  have hb : Acceptance.backedBy l.pool (l.run calls).pool = true :=
    backedBy_of_nodup h.unrepeated.pool_nodup hpending
  have hr := h.run calls
  -- A block of all that waited before would be backed, so what it pays is covered.
  exact paidBy_le_exact (b := { Block.genesis with transactions := l.pool }) hr.solvent
    hr.unrepeated.pool_nodup hb a

end Ledger

/-! ## What is in the trees -/

namespace Store

variable {s : Store}

theorem writeAll_cons (s : Store) (w : Write) (ws : List Write) :
    s.writeAll (w :: ws) = (s.write w).writeAll ws := rfl

/-- Writes to other trees leave a tree alone. -/
theorem tree_writeAll_of_ne {ws : List Write} {name : TreeName} (h : ∀ w ∈ ws, name ≠ w.name) :
    (s.writeAll ws).tree name = s.tree name := by
  induction ws generalizing s with
  | nil => rfl
  | cons w ws ih =>
    obtain ⟨hw, hws⟩ := List.forall_mem_cons.mp h
    rw [writeAll_cons, ih hws, tree_write, if_neg hw]

/-- A ledger that is in order can be read back, as far as the chain and the pool go. -/
structure Keeps (store : Store) (l : Ledger) : Prop where
  tidy : l.Tidy
  chain : store.loadChain = .ok (some l.chain)
  pool : store.loadPool = .ok l.pool

/-- Nothing is stored, or the chain and the pool of one ledger. -/
def Whole (store : Store) : Prop :=
  (store.loadChain = .ok none ∧ store.loadPool = .ok []) ∨ ∃ l, store.Keeps l

theorem whole_empty : empty.Whole := .inl ⟨rfl, rfl⟩

end Store

namespace Simulator

variable {next s : Simulator} {store : Store} {book : WalletBook} {blocks : List Block}
  {pool : Pool} {count : Nat}

/-- A chain that is read comes back with the pool, if it is accepted, or else neither does. -/
theorem restore_cases (next : Simulator) (hb : store.loadChain = .ok (some blocks))
    (hp : store.loadPool = .ok pool) :
    ((next.restoreChain store).1 = true ∧ (next.restore store).ledger.chain = blocks ∧
      (next.restore store).ledger.pool = pool) ∨
    ((next.restoreChain store).1 = false ∧
      (next.restore store).ledger.chain = [Block.genesis] ∧
      (next.restore store).ledger.pool = []) := by
  have hr : next.restoreChain store = (next.ledger.accepts blocks next.settings.strictLoading,
      next.ledger.load blocks next.settings.strictLoading) := by
    rw [restoreChain, hb]
  rw [restore, hr]
  dsimp only
  by_cases ha : next.ledger.accepts blocks next.settings.strictLoading = true
  · left
    rw [ha, if_pos rfl, hp]
    exact ⟨rfl, (Ledger.load_of_accepts ha).1, rfl⟩
  · right
    obtain ⟨hc, hn⟩ := Ledger.load_of_not_accepts ha
    rw [Bool.not_eq_true] at ha
    rw [ha, if_neg Bool.false_ne_true]
    exact ⟨rfl, hc, hn⟩

theorem restore_of_none (next : Simulator) (h : store.loadChain = .ok none) :
    (next.restoreChain store).1 = false ∧ next.restore store = next := by
  have hr : next.restoreChain store = (false, next.ledger) := by rw [restoreChain, h]
  rw [restore, hr]
  exact ⟨rfl, rfl⟩

/-- Whoever restores a store that is whole has a ledger in order. -/
theorem tidy_restore (h : store.Whole) (settings : Settings) (difficulty : Nat) :
    ((ofLedger settings (.withDifficulty difficulty)).restore store).ledger.Tidy := by
  have hstart : (Ledger.withDifficulty difficulty).Tidy := Ledger.tidy_withDifficulty difficulty
  rcases h with ⟨hn, _⟩ | ⟨l, hl⟩
  · rw [(restore_of_none _ hn).2]
    exact hstart
  · rcases restore_cases (ofLedger settings (.withDifficulty difficulty)) hl.chain hl.pool with
      ⟨_, hc, hp⟩ | ⟨_, hc, hp⟩
    · exact hl.tidy.congr hc hp
    · exact hstart.congr hc hp

/-! ## A save that stops -/

/-- The store after a save that stops when it has written so many trees. -/
def saveUpTo (s : Simulator) (book : WalletBook) (store : Store) (count : Nat) : Store :=
  store.writeAll ((s.saves book).take count)

theorem tree_blocks_saveUpTo_succ (s : Simulator) (book : WalletBook) (store : Store)
    (count : Nat) : (s.saveUpTo book store (count + 1)).tree .blocks =
      OrderedMap.ofList (Write.chain s.ledger.chain).entries := by
  have hn : ∀ w ∈ [Write.pool s.ledger.pool, Write.wallets book].take count,
      TreeName.blocks ≠ w.name := by
    intro w hw
    rcases List.mem_pair.mp (List.mem_of_mem_take hw) with rfl | rfl
    · exact TreeName.noConfusion
    · exact TreeName.noConfusion
  rw [saveUpTo, saves, List.take_succ_cons, Store.writeAll_cons, Store.tree_writeAll_of_ne hn,
    Store.tree_write]
  rfl

theorem tree_pending_saveUpTo_one (s : Simulator) (book : WalletBook) (store : Store) :
    (s.saveUpTo book store 1).tree .pending = store.tree .pending := by
  have hn : ∀ w ∈ (s.saves book).take 1, TreeName.pending ≠ w.name := by
    intro w hw
    rw [List.mem_singleton.mp hw]
    exact TreeName.noConfusion
  rw [saveUpTo, Store.tree_writeAll_of_ne hn]

theorem tree_pending_saveUpTo_add_two (s : Simulator) (book : WalletBook) (store : Store)
    (count : Nat) : (s.saveUpTo book store (count + 2)).tree .pending =
      OrderedMap.ofList (Write.pool s.ledger.pool).entries := by
  have hn : ∀ w ∈ [Write.wallets book].take count, TreeName.pending ≠ w.name := by
    intro w hw
    rw [List.mem_singleton.mp (List.mem_of_mem_take hw)]
    exact TreeName.noConfusion
  rw [saveUpTo, saves, List.take_succ_cons, List.take_succ_cons, Store.writeAll_cons,
    Store.writeAll_cons, Store.tree_writeAll_of_ne hn, Store.tree_write]
  rfl

/-- A save that comes to its end leaves the chain and the pool as one that stops after them. -/
theorem keeps_save_iff (s : Simulator) (book : WalletBook) (store : Store) (l : Ledger) :
    (s.save book store).Keeps l ↔ (s.saveUpTo book store 3).Keeps l :=
  ⟨fun ⟨ht, hc, hp⟩ => ⟨ht, hc, hp⟩, fun ⟨ht, hc, hp⟩ => ⟨ht, hc, hp⟩⟩

theorem loadChain_saveUpTo_succ (ht : s.ledger.Tidy) (hz : s.ledger.size < UInt32.size)
    (hf : ∀ b ∈ s.ledger.chain, Fits b) (store : Store) (count : Nat) :
    (s.saveUpTo book store (count + 1)).loadChain = .ok (some s.ledger.chain) :=
  Store.loadChain_eq_ok s.ledger.chain_ne_nil (tree_blocks_saveUpTo_succ s book store count)
    (Ledger.ascending_of_heights (ht.heights hz)) hf

theorem keeps_saveUpTo_add_two (ht : s.ledger.Tidy) (hz : s.ledger.size < UInt32.size)
    (hs : Storable s.ledger book) (store : Store) (count : Nat) :
    (s.saveUpTo book store (count + 2)).Keeps s.ledger where
  tidy := ht
  chain := loadChain_saveUpTo_succ ht hz hs.chain store (count + 1)
  pool := Store.loadPool_eq_ok (tree_pending_saveUpTo_add_two s book store count) hs.pool

/-! ## Sessions -/

/-- One run of the program: a new simulator restores what is stored, transactions and blocks come,
and in the end there are these wallets to save. -/
structure Session where
  settings : Settings
  difficulty : Nat
  calls : List Ledger.Call
  book : WalletBook

namespace Session

variable (σ : Session) (store : Store)

/-- The simulator that restores the store. -/
def blank : Simulator := ofLedger σ.settings (.withDifficulty σ.difficulty)

/-- The ledger when everything has come. -/
def ledger : Ledger := ((σ.blank.restore store).ledger).run σ.calls

/-- The simulator that saves. -/
def finished : Simulator := { σ.blank with ledger := σ.ledger store }

/-- The session ends with a ledger that heights and lengths are enough for. -/
structure Ends : Prop where
  numbered : (σ.ledger store).size < UInt32.size
  storable : Storable (σ.ledger store) σ.book

/-- The store after a session that saves everything. -/
def saved : Store := (σ.finished store).save σ.book store

/-- The store after a session that stops in the middle of saving. -/
def cut (count : Nat) : Store := (σ.finished store).saveUpTo σ.book store count

variable {σ store}

theorem tidy_ledger (h : store.Whole) : (σ.ledger store).Tidy :=
  (tidy_restore h σ.settings σ.difficulty).run σ.calls

theorem loadChain_cut_one (h : store.Whole) (he : σ.Ends store) :
    (σ.cut store 1).loadChain = .ok (some (σ.ledger store).chain) :=
  loadChain_saveUpTo_succ (tidy_ledger h) he.numbered he.storable.chain store 0

theorem loadPool_cut_one (σ : Session) (store : Store) :
    (σ.cut store 1).loadPool = store.loadPool :=
  Store.loadPool_congr (tree_pending_saveUpTo_one (σ.finished store) σ.book store)

theorem whole_cut (h : store.Whole) (he : σ.Ends store) (hcount : count ≠ 1) :
    (σ.cut store count).Whole := by
  match count, hcount with
  | 0, _ => exact h
  | 1, h1 => exact absurd rfl h1
  | count + 2, _ =>
    exact .inr ⟨_, keeps_saveUpTo_add_two (tidy_ledger h) he.numbered he.storable store count⟩

theorem keeps_saved (h : store.Whole) (he : σ.Ends store) :
    (σ.saved store).Keeps (σ.ledger store) := by
  have hk : ((σ.finished store).saveUpTo σ.book store 3).Keeps (σ.ledger store) :=
    keeps_saveUpTo_add_two (tidy_ledger h) he.numbered he.storable store 1
  exact (keeps_save_iff _ _ _ _).mpr hk

/-- The store after complete sessions, one after the other. -/
def savedAll (store : Store) (sessions : List Session) : Store :=
  sessions.foldl (fun store σ => σ.saved store) store

/-- Each of these sessions, taken up where the one before left off, ends as it should. -/
def AllEnd (store : Store) : List Session → Prop
  | [] => True
  | σ :: rest => σ.Ends store ∧ AllEnd (σ.saved store) rest

theorem whole_savedAll {sessions : List Session} (h : store.Whole) (he : AllEnd store sessions) :
    (savedAll store sessions).Whole := by
  induction sessions generalizing store with
  | nil => exact h
  | cons σ rest ih => exact ih (.inr ⟨_, keeps_saved h he.1⟩) he.2

/-- The pool that was restored, on the chain that was made of it. -/
theorem carries_iff_of_restored (h : store.Whole) (hr : (σ.blank.restoreChain store).1 = true)
    (hp : store.loadPool = .ok pool) : Carries (σ.ledger store).chain pool ↔
      ∀ t ∈ pool, t.occursIn (history (σ.ledger store).chain) = false := by
  rcases h with ⟨hn, _⟩ | ⟨l, hl⟩
  · rw [(restore_of_none _ hn).1] at hr
    cases hr
  · rcases restore_cases σ.blank hl.chain hp with ⟨_, _, hpool⟩ | ⟨hf, _⟩
    · have ht := tidy_restore (.inr ⟨l, hl⟩) σ.settings σ.difficulty
      have hc := ht.carries_run_iff σ.calls
      change Carries (σ.ledger store).chain (σ.blank.restore store).ledger.pool ↔
        ∀ t ∈ (σ.blank.restore store).ledger.pool, _ at hc
      rwa [hpool] at hc
    · rw [hf] at hr
      cases hr

/-- Between the chain and the pool. -/
theorem sound_restore_cut_one_iff (h : store.Whole) (he : σ.Ends store) (settings : Settings)
    (difficulty : Nat) :
    let next := ofLedger settings (.withDifficulty difficulty)
    (next.restore (σ.cut store 1)).ledger.Sound ↔
      ((next.restoreChain (σ.cut store 1)).1 = true →
        ∀ pool, store.loadPool = .ok pool → Carries (σ.ledger store).chain pool) := by
  intro next
  have hb := loadChain_cut_one h he
  have hcut := loadPool_cut_one σ store
  obtain ⟨pool, hp⟩ : ∃ pool, store.loadPool = .ok pool := by
    rcases h with ⟨_, hp⟩ | ⟨l, hl⟩
    · exact ⟨[], hp⟩
    · exact ⟨l.pool, hl.pool⟩
  rw [Ledger.sound_iff_carries]
  rcases restore_cases next hb (hcut.trans hp) with ⟨ha, hc, hn⟩ | ⟨ha, hc, hn⟩
  · rw [hc, hn]
    refine ⟨fun hcarries _ pool' hp' => ?_, fun hall => hall ha pool hp⟩
    rw [hp] at hp'
    cases hp'
    exact hcarries
  · have ht : (next.restore (σ.cut store 1)).ledger.Tidy :=
      (Ledger.tidy_withDifficulty difficulty).congr hc hn
    rw [ha]
    exact ⟨fun _ hf => absurd hf Bool.false_ne_true,
      fun _ => Ledger.sound_iff_carries.mp ht.sound⟩

/-- However complete sessions followed each other and whatever the last one did before it was cut
short in saving: the next simulator, under any settings, has a sound ledger unless the cut is
between the chain and the pool. There it has one exactly if the new chain is not accepted, or
carries what was pending before. If the session had gone on from the stored chain, that is to say
that it mined nothing of what was pending when it began. -/
theorem sound_restore_cut_iff {sessions : List Session} (hs : AllEnd .empty sessions)
    {σ : Session} (he : σ.Ends (savedAll .empty sessions)) (settings : Settings)
    (difficulty count : Nat) :
    let store := savedAll .empty sessions
    let chain := (σ.ledger store).chain
    let next := ofLedger settings (.withDifficulty difficulty)
    ((next.restore (σ.cut store count)).ledger.Sound ↔
      (count = 1 → (next.restoreChain (σ.cut store count)).1 = true →
        ∀ pool, store.loadPool = .ok pool → Carries chain pool)) ∧
    ((σ.blank.restoreChain store).1 = true → ∀ pool, store.loadPool = .ok pool →
      (Carries chain pool ↔ ∀ t ∈ pool, t.occursIn (history chain) = false)) := by
  intro store chain next
  have hw : store.Whole := whole_savedAll Store.whole_empty hs
  refine ⟨?_, fun hr pool hp => carries_iff_of_restored hw hr hp⟩
  by_cases hcount : count = 1
  · subst hcount
    have hone := sound_restore_cut_one_iff hw he settings difficulty
    exact ⟨fun hsound _ => hone.mp hsound, fun hall => hone.mpr (hall rfl)⟩
  · have ht : (next.restore (σ.cut store count)).ledger.Tidy :=
      tidy_restore (whole_cut hw he hcount) settings difficulty
    exact ⟨fun _ h1 => absurd h1 hcount, fun _ => ht.sound⟩

/-! ## A payment that waits over the cut -/

namespace Bought

open Paused Ledger
open KeySwap (payment)

/-- The payment is funded and let in. -/
def buying : Session :=
  ⟨.defaults, 5, [.append funding 1600000000000, .submit payment], wallets⟩

/-- The payment goes on waiting. -/
def waiting : Session := ⟨.defaults, 5, [.append second 1600000000000], wallets⟩

/-- The payment is settled. -/
def paying : Session := ⟨.defaults, 5, [.append settling 1600000000000], wallets⟩

def kept : Store := savedAll .empty [buying]

theorem ledger_buying : buying.ledger .empty = pending := by
  have hb : (buying.blank.restore .empty).ledger = fresh := rfl
  rw [ledger, hb, buying, Ledger.run, List.foldl_cons, (perform_append funding_acceptable).2,
    List.foldl_cons, (perform_submit payment_admissible).2, List.foldl_nil]
  rfl

/-- All that is ever saved here can be read back. -/
theorem fits_saved :
    (∀ b ∈ [Block.genesis, funding, second, settling], Fits b) ∧ Fits [payment] ∧
      ∀ e ∈ wallets.entries, Fits e.2 := by
  decide

theorem storable {l : Ledger} (hc : l.chain ⊆ [Block.genesis, funding, second, settling])
    (hp : l.pool <:+ [payment]) : Storable l wallets where
  chain := fun b hb => fits_saved.1 b (hc hb)
  pool := ⟨Nat.lt_of_le_of_lt hp.length_le fits_saved.2.1.1,
    fun t ht => fits_saved.2.1.2 t (hp.subset ht)⟩
  wallets := fits_saved.2.2

theorem ends_buying : buying.Ends .empty := by
  refine ⟨?_, ?_⟩
  · rw [ledger_buying]
    decide
  · rw [ledger_buying]
    have hc : [Block.genesis, funding] ⊆ [Block.genesis, funding, second, settling] := by simp
    exact storable hc List.suffix_rfl

theorem keeps_kept : kept.Keeps pending := by
  rw [← ledger_buying]
  exact keeps_saved Store.whole_empty ends_buying

theorem restore_kept : (waiting.blank.restoreChain kept).1 = true ∧
    waiting.blank.restore kept = { waiting.blank with ledger := pending } :=
  restore_eq keeps_kept.chain keeps_kept.pool rfl rfl rfl

theorem ledger_waiting : waiting.ledger kept = pending.extend second := by
  rw [ledger, restore_kept.2, waiting, Ledger.run, List.foldl_cons,
    (perform_append second_acceptable).2, List.foldl_nil]

theorem ledger_restore_paying : (paying.blank.restore kept).ledger = pending :=
  congrArg Simulator.ledger restore_kept.2

theorem ledger_paying : paying.ledger kept = pending.extend settling := by
  rw [ledger, ledger_restore_paying, paying, Ledger.run, List.foldl_cons,
    (perform_append settling_acceptable).2, List.foldl_nil]

/-- The chain of the whole purchase is taken under any settings. -/
theorem accepts_paying (strict : Bool) :
    fresh.accepts (pending.extend settling).chain strict = true := by
  have hc : fresh.Throughout CopiesPending Reloaded.purchase :=
    @Reloaded.copiesPending_purchase 5 []
  have hr : fresh.run Reloaded.purchase = pending.extend settling := @Reloaded.run_purchase 5 []
  have hz : (fresh.run Reloaded.purchase).size < UInt32.size := by
    rw [hr]
    decide
  rw [← hr]
  exact accepts_run hc hz strict

theorem ends_waiting : waiting.Ends kept := by
  refine ⟨?_, ?_⟩
  · rw [ledger_waiting]
    decide
  · rw [ledger_waiting]
    have hc : [Block.genesis, funding, second] ⊆ [Block.genesis, funding, second, settling] := by
      simp
    exact storable hc List.suffix_rfl

theorem ends_paying : paying.Ends kept := by
  refine ⟨?_, ?_⟩
  · rw [ledger_paying]
    decide
  · rw [ledger_paying]
    have hc : [Block.genesis, funding, settling] ⊆
        [Block.genesis, funding, second, settling] := by
      simp
    exact storable hc List.nil_suffix

end Bought

open Bought Ledger in
/-- What waited is not mined in the session that is cut short, and waits under strict loading. -/
theorem sound_restore_cut_waiting :
    let next := ofLedger { strictLoading := true } (.withDifficulty 5)
    AllEnd .empty [buying] ∧ waiting.Ends (savedAll .empty [buying]) ∧
      (waiting.blank.restoreChain kept).1 = true ∧ kept.loadPool = .ok [KeySwap.payment] ∧
      (waiting.ledger kept).size = 2 ∧ (next.restore (waiting.cut kept 1)).ledger.Sound := by
  intro next
  have hs : AllEnd .empty [buying] := ⟨ends_buying, trivial⟩
  obtain ⟨hiff, hcarries⟩ := sound_restore_cut_iff hs ends_waiting { strictLoading := true } 5 1
  have hsize : (waiting.ledger kept).size = 2 := by
    rw [ledger_waiting]
    rfl
  refine ⟨hs, ends_waiting, restore_kept.1, keeps_kept.pool, hsize,
    hiff.mpr fun _ _ pool hp => (hcarries restore_kept.1 pool hp).mpr ?_⟩
  intro t _
  change t.occursIn (history (waiting.ledger kept).chain) = false
  rw [ledger_waiting]
  rfl

open Bought Paused Ledger in
/-- What waited is mined in the session that is cut short, by a miner who works on what the session
has, and waits again in the next one, whether the chain is verified or not. -/
theorem settled_and_pending :
    let miner := (paying.blank.restore kept).ledger.snapshot.candidate settling.minerName "TC"
    let next (strict : Bool) := ofLedger { strictLoading := strict } fresh
    AllEnd .empty [buying] ∧ paying.Ends kept ∧ (paying.blank.restoreChain kept).1 = true ∧
      miner.attempt? settling.timestamp settling.nonce = some settling ∧
      ∀ strict : Bool, ((next strict).restoreChain (paying.cut kept 1)).1 = true ∧
        KeySwap.payment ∈ ((next strict).restore (paying.cut kept 1)).ledger.pool ∧
        KeySwap.payment.occursIn
          (history ((next strict).restore (paying.cut kept 1)).ledger.chain) = true := by
  have hw : kept.Whole := .inr ⟨_, keeps_kept⟩
  have hb := loadChain_cut_one hw ends_paying
  have hp := (loadPool_cut_one paying kept).trans keeps_kept.pool
  rw [ledger_paying] at hb
  intro miner next
  refine ⟨⟨ends_buying, trivial⟩, ends_paying, restore_kept.1, ?_, fun strict => ?_⟩
  · have hm : miner = pending.snapshot.candidate settling.minerName "TC" := by
      rw [← ledger_restore_paying]
    rw [hm]
    exact Candidate.attempt?_of_fits settling_acceptable.fits rfl rfl
  · have ha : ((next strict).restoreChain (paying.cut kept 1)).1 = true := by
      rw [restoreChain, hb]
      exact accepts_paying strict
    rcases restore_cases (next strict) hb hp with ⟨_, hchain, hpool⟩ | ⟨hf, _⟩
    · rw [hchain, hpool]
      exact ⟨ha, List.mem_cons_self, by decide⟩
    · rw [hf] at ha
      cases ha

end Session

end Simulator

end WorkLedger
