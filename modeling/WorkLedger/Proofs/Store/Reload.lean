import Mathlib.Data.List.Perm.Basic
import WorkLedger.Proofs.Store.Codec
import WorkLedger.Proofs.Store.Order

/-! What is saved is loaded. Writing a tree leaves the other trees alone and forgets what the tree
held; reading it goes through the entries in the order of their keys, which for blocks is the order
of their heights, for pending transactions the order of their places, and for wallets does not
matter. -/

namespace WorkLedger

open Binary (encode decode Lossless)
open Binary.Lossless (Fits)

namespace Store

theorem tree_withTree (s : Store) (name other : TreeName) (tree : Tree) :
    (s.withTree name tree).tree other = if other = name then tree else s.tree other := by
  cases name <;> cases other <;> rfl

/-- A write replaces one tree. -/
theorem tree_write (s : Store) (w : Write) (name : TreeName) :
    (s.write w).tree name =
      if name = w.name then OrderedMap.ofList w.entries else s.tree name := by
  rw [write, tree_withTree, Tree.changeAll_replacement]

theorem readRecord_encode {α : Type} [Binary α] [Lossless α] {x : α} (h : Fits x) :
    readRecord (encode x) = .ok x := by
  have hd := Lossless.decode_encode h []
  rw [List.append_nil] at hd
  rw [readRecord, Binary.read?, hd]
  rfl

theorem mapM_eq_ok {α β : Type} {f : β → Except Error α} {g : α → β} {xs : List α}
    (h : ∀ x ∈ xs, f (g x) = .ok x) : (xs.map g).mapM f = .ok xs := by
  induction xs with
  | nil => rfl
  | cons x xs ih =>
    obtain ⟨hx, hxs⟩ := List.forall_mem_cons.mp h
    rw [List.map_cons, List.mapM_cons, hx, ih hxs]
    rfl

theorem length_of_mapM_eq_ok {α β : Type} {f : β → Except Error α} {ys : List β} {xs : List α}
    (h : ys.mapM f = .ok xs) : xs.length = ys.length := by
  induction ys generalizing xs with
  | nil =>
    cases h
    rfl
  | cons y ys ih =>
    rw [List.mapM_cons] at h
    cases hy : f y with
    | error e =>
      rw [hy] at h
      cases h
    | ok x =>
      cases hys : ys.mapM f with
      | error e =>
        rw [hy, hys] at h
        cases h
      | ok rest =>
        rw [hy, hys] at h
        cases h
        rw [List.length_cons, List.length_cons, ih hys]

/-! What is loaded depends on the one tree. -/

section Congr

variable {s t : Store}

theorem loadChain_congr (h : s.tree .blocks = t.tree .blocks) : s.loadChain = t.loadChain := by
  have hb : s.blocks = t.blocks := h
  rw [loadChain, loadChain, hb]

theorem loadPool_congr (h : s.tree .pending = t.tree .pending) : s.loadPool = t.loadPool := by
  have hp : s.pending = t.pending := h
  rw [loadPool, loadPool, hp]

theorem loadWallets_congr (h : s.tree .wallets = t.tree .wallets) :
    s.loadWallets = t.loadWallets := by
  have hw : s.wallets = t.wallets := h
  rw [loadWallets, loadWallets, hw]

end Congr

/-! ## Blocks -/

theorem ascending_chain {blocks : List Block}
    (h : blocks.Pairwise fun a b => a.height.toNat < b.height.toNat) :
    OrderedMap.Ascending (Write.chain blocks).entries := by
  refine List.pairwise_map.mpr (h.imp fun {a b} hab => ?_)
  exact Bytes.compare_bigEndian_lt hab b.height.toNat_lt_size

theorem loadChain_eq_ok {s : Store} {blocks : List Block} (hne : blocks ≠ [])
    (hs : s.tree .blocks = OrderedMap.ofList (Write.chain blocks).entries)
    (hh : blocks.Pairwise fun a b => a.height.toNat < b.height.toNat)
    (hf : ∀ b ∈ blocks, Fits b) : s.loadChain = .ok (some blocks) := by
  have he : s.blocks.entries = (Write.chain blocks).entries := by
    rw [← OrderedMap.entries_ofList (ascending_chain hh), ← hs]
    rfl
  have hv : s.blocks.values = blocks.map encode := by
    rw [OrderedMap.values, he, Write.chain, List.map_map]
    rfl
  have hn : s.blocks.isEmpty = false := by
    rw [OrderedMap.isEmpty, he, Write.chain]
    simpa using hne
  have hm : (blocks.map encode).mapM readRecord = .ok blocks :=
    mapM_eq_ok fun b hb => readRecord_encode (hf b hb)
  rw [loadChain, hn, hv, hm]
  rfl

/-- A height has four bytes, so no more blocks come back than there are heights. -/
theorem length_of_loadChain {s : Store} {blocks loaded : List Block}
    (hs : s.tree .blocks = OrderedMap.ofList (Write.chain blocks).entries)
    (hl : s.loadChain = .ok (some loaded)) : loaded.length ≤ UInt32.size := by
  have hk : ∀ e ∈ (Write.chain blocks).entries,
      e.1 ∈ (List.range UInt32.size).map (Bytes.bigEndian 4) := by
    intro e he
    obtain ⟨b, _, rfl⟩ := List.mem_map.mp he
    exact List.mem_map_of_mem (List.mem_range.mpr b.height.toNat_lt_size)
  have hle : s.blocks.values.length ≤ UInt32.size := by
    have h := OrderedMap.length_ofList_le hk
    rw [List.length_map, List.length_range, ← hs] at h
    rwa [OrderedMap.values, List.length_map]
  rw [loadChain] at hl
  cases he : s.blocks.isEmpty with
  | true =>
    rw [he] at hl
    cases hl
  | false =>
    cases hm : s.blocks.values.mapM (readRecord (α := Block)) with
    | error e =>
      rw [he, hm] at hl
      cases hl
    | ok read =>
      rw [he, hm] at hl
      cases hl
      rwa [length_of_mapM_eq_ok hm]

/-! ## Pending transactions -/

theorem ascending_pool {pool : List Transaction} (h : pool.length < UInt64.size) :
    OrderedMap.Ascending (Write.pool pool).entries := by
  refine List.pairwise_map.mpr (List.pairwise_iff_getElem.mpr fun i j hi hj hij => ?_)
  rw [List.getElem_zipIdx, List.getElem_zipIdx, Nat.zero_add, Nat.zero_add]
  refine Bytes.compare_bigEndian_lt hij ?_
  rw [List.length_zipIdx] at hj
  exact Nat.lt_trans hj h

theorem loadPool_eq_ok {s : Store} {pool : List Transaction}
    (hs : s.tree .pending = OrderedMap.ofList (Write.pool pool).entries) (hf : Fits pool) :
    s.loadPool = .ok pool := by
  have he : s.pending.entries = (Write.pool pool).entries := by
    rw [← OrderedMap.entries_ofList (ascending_pool hf.1), ← hs]
    rfl
  have hv : s.pending.values = pool.map encode := by
    have hz : pool.map encode = (pool.zipIdx.map Prod.fst).map encode := by
      rw [List.zipIdx_map_fst]
    rw [OrderedMap.values, he, Write.pool, hz, List.map_map, List.map_map]
    rfl
  rw [loadPool, hv]
  exact mapM_eq_ok fun t ht => readRecord_encode (hf.2 t ht)

/-! ## Wallets -/

def walletEntry (e : String × Wallet) : Bytes × Bytes := (Bytes.ofText e.1, encode e.2)

theorem readNamed_walletEntry {e : String × Wallet} (h : Fits e.2) :
    readNamed (walletEntry e) = .ok e := by
  rw [readNamed, walletEntry, Bytes.toText?_ofText]
  dsimp only
  rw [readRecord_encode h]
  rfl

theorem nodup_keys_wallets (book : WalletBook) :
    ((Write.wallets book).entries.map Prod.fst).Nodup := by
  have hb : OrderedMap.Ascending book.entries := book.ascending
  have hm : (Write.wallets book).entries.map Prod.fst =
      (book.entries.map Prod.fst).map Bytes.ofText := by
    rw [Write.wallets, List.map_map, List.map_map]
    rfl
  rw [hm]
  exact hb.nodup_keys.map fun _ _ => Bytes.ofText_injective

/-- The names come back in the order of their bytes, and the book does not mind. -/
theorem loadWallets_eq_ok {s : Store} {book : WalletBook}
    (hs : s.tree .wallets = OrderedMap.ofList (Write.wallets book).entries)
    (hf : ∀ e ∈ book.entries, Fits e.2) : s.loadWallets = .ok book := by
  have hp : s.wallets.entries.Perm (book.entries.map walletEntry) := by
    have hw : s.wallets = OrderedMap.ofList (Write.wallets book).entries := hs
    rw [hw]
    exact OrderedMap.ofList_perm (nodup_keys_wallets book)
  rw [← congrFun₂ (List.eq_map_comp_perm walletEntry)] at hp
  obtain ⟨stored, he, hperm⟩ := hp
  have hm : (stored.map walletEntry).mapM readNamed = .ok stored :=
    mapM_eq_ok fun e hmem => readNamed_walletEntry (hf e (hperm.subset hmem))
  have hb : WalletBook.ofEntries stored = book := OrderedMap.ofList_eq_of_perm hperm
  rw [loadWallets, he, hm, ← hb]
  rfl

end Store

end WorkLedger
