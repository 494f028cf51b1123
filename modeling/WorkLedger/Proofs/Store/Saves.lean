import Mathlib.Data.List.Induction
import WorkLedger.Proofs.Store.Reload

/-! Saving again and again. Each kind of record has a tree of its own, and a save replaces it as a
whole. So after any saves, in whatever order the kinds come, a tree holds what the last save of its
kind put there; what was there before, of whatever length, and what went into the other trees do not
matter. The order of a list is in the keys, and comes back with them. -/

namespace WorkLedger

open Binary.Lossless (Fits)

/-- Something that is saved as a whole. -/
inductive Save
  | chain (blocks : List Block)
  | pool (ts : List Transaction)
  | wallets (book : WalletBook)

namespace Save

def chain? : Save → Option (List Block)
  | .chain blocks => some blocks
  | _ => none

def pool? : Save → Option (List Transaction)
  | .pool ts => some ts
  | _ => none

def wallets? : Save → Option WalletBook
  | .wallets book => some book
  | _ => none

/-- What the last save of a kind saved. -/
def last? {α : Type} (kind : Save → Option α) (saves : List Save) : Option α :=
  (saves.filterMap kind).getLast?

theorem last?_concat {α : Type} (kind : Save → Option α) (saves : List Save) (save : Save) :
    last? kind (saves ++ [save]) = (kind save).or (last? kind saves) := by
  rw [last?, List.filterMap_append, List.getLast?_append, last?]
  cases h : kind save with
  | none => rw [List.filterMap_cons_none h]; rfl
  | some x => rw [List.filterMap_cons_some h]; rfl

def write : Save → Write
  | .chain blocks => .chain blocks
  | .pool ts => .pool ts
  | .wallets book => .wallets book

/-- Saves of the kind, and no others, go to the tree, each with its own entries. -/
structure Owns {α : Type} (kind : Save → Option α) (name : TreeName) (write : α → Write) :
    Prop where
  name_eq : ∀ x, (write x).name = name
  write_eq : ∀ save x, kind save = some x → save.write = write x
  elsewhere : ∀ save, kind save = none → name ≠ save.write.name

theorem owns_chain : Owns chain? .blocks Write.chain where
  name_eq _ := rfl
  write_eq save blocks h := by
    cases save <;> cases h
    rfl
  elsewhere save h := by cases save <;> simp_all [chain?, write, Write.pool, Write.wallets]

theorem owns_pool : Owns pool? .pending Write.pool where
  name_eq _ := rfl
  write_eq save ts h := by
    cases save <;> cases h
    rfl
  elsewhere save h := by cases save <;> simp_all [pool?, write, Write.chain, Write.wallets]

theorem owns_wallets : Owns wallets? .wallets Write.wallets where
  name_eq _ := rfl
  write_eq save book h := by
    cases save <;> cases h
    rfl
  elsewhere save h := by cases save <;> simp_all [wallets?, write, Write.chain, Write.pool]

end Save

namespace Store

def save (s : Store) : Save → Store
  | .chain blocks => s.saveChain blocks
  | .pool ts => s.savePool ts
  | .wallets book => s.saveWallets book

def saveAll (s : Store) (saves : List Save) : Store := saves.foldl save s

theorem save_eq (s : Store) (save : Save) : s.save save = s.write save.write := by
  cases save <;> rfl

theorem saveAll_concat (s : Store) (saves : List Save) (save : Save) :
    s.saveAll (saves ++ [save]) = (s.saveAll saves).save save :=
  List.foldl_concat _ _ _ _

/-- After any saves a tree holds the entries of the last one of its kind, or else what it held. -/
theorem tree_saveAll {α : Type} {kind : Save → Option α} {name : TreeName} {write : α → Write}
    (h : Save.Owns kind name write) (s : Store) (saves : List Save) :
    (s.saveAll saves).tree name =
      ((Save.last? kind saves).map fun x => OrderedMap.ofList (write x).entries).getD
        (s.tree name) := by
  induction saves using List.reverseRecOn with
  | nil => rfl
  | append_singleton saves save ih =>
    rw [saveAll_concat, save_eq, tree_write, Save.last?_concat]
    cases hk : kind save with
    | none => rw [if_neg (h.elsewhere save hk), ih, Option.none_or]
    | some x =>
      rw [h.write_eq save x hk, if_pos (h.name_eq x).symm, Option.some_or, Option.map_some,
        Option.getD_some]

theorem tree_saveAll_of_last {α : Type} {kind : Save → Option α} {name : TreeName}
    {write : α → Write} (h : Save.Owns kind name write) {s : Store} {saves : List Save} {x : α}
    (hx : Save.last? kind saves = some x) :
    (s.saveAll saves).tree name = OrderedMap.ofList (write x).entries := by
  rw [tree_saveAll h, hx, Option.map_some, Option.getD_some]

theorem tree_saveAll_of_none {α : Type} {kind : Save → Option α} {name : TreeName}
    {write : α → Write} (h : Save.Owns kind name write) {s : Store} {saves : List Save}
    (hn : Save.last? kind saves = none) : (s.saveAll saves).tree name = s.tree name := by
  rw [tree_saveAll h, hn, Option.map_none, Option.getD_none]

/-- Nothing comes back from a tree that an empty chain was saved to. -/
theorem loadChain_eq_none {s : Store} (hs : s.tree .blocks = .empty) : s.loadChain = .ok none := by
  have hb : s.blocks = .empty := hs
  rw [loadChain, hb]
  rfl

/-- Whatever was stored, and whatever was saved before and in between: the pool that was saved last
is loaded in its order, the wallets that were saved last under their names, and the chain that was
saved last in its order if its heights rise, or none if it was empty. A kind that was not saved is
loaded as it was, and from a new store there is nothing to load. Lengths are taken to be below two
to the power of 64, as they are in memory. -/
theorem load_saveAll (s : Store) (saves : List Save) :
    (∀ ts, Save.last? Save.pool? saves = some ts → Fits ts → (s.saveAll saves).loadPool = .ok ts) ∧
    (∀ book, Save.last? Save.wallets? saves = some book → (∀ e ∈ book.entries, Fits e.2) →
      (s.saveAll saves).loadWallets = .ok book) ∧
    (∀ blocks, Save.last? Save.chain? saves = some blocks → (∀ b ∈ blocks, Fits b) →
      (blocks.Pairwise fun a b => a.height.toNat < b.height.toNat) →
      (s.saveAll saves).loadChain = .ok (if blocks = [] then none else some blocks)) ∧
    (Save.last? Save.pool? saves = none → (s.saveAll saves).loadPool = s.loadPool) ∧
    (Save.last? Save.wallets? saves = none → (s.saveAll saves).loadWallets = s.loadWallets) ∧
    (Save.last? Save.chain? saves = none → (s.saveAll saves).loadChain = s.loadChain) ∧
    empty.loadPool = .ok [] ∧ empty.loadWallets = .ok .empty ∧ empty.loadChain = .ok none := by
  refine ⟨fun ts ht hf => ?_, fun book hb hf => ?_, fun blocks hb hf hh => ?_, fun hn => ?_,
    fun hn => ?_, fun hn => ?_, rfl, rfl, rfl⟩
  · exact loadPool_eq_ok (tree_saveAll_of_last Save.owns_pool ht) hf
  · exact loadWallets_eq_ok (tree_saveAll_of_last Save.owns_wallets hb) hf
  · have ht := tree_saveAll_of_last (s := s) Save.owns_chain hb
    by_cases he : blocks = []
    · rw [if_pos he]
      rw [he] at ht
      exact loadChain_eq_none ht
    · rw [if_neg he]
      exact loadChain_eq_ok he ht hh hf
  · exact loadPool_congr (tree_saveAll_of_none Save.owns_pool hn)
  · exact loadWallets_congr (tree_saveAll_of_none Save.owns_wallets hn)
  · exact loadChain_congr (tree_saveAll_of_none Save.owns_chain hn)

namespace Replacing

def chain (heights : List UInt32) : List Block :=
  heights.map fun height => { Block.genesis with height }

def pool (amounts : List UInt64) : List Transaction :=
  amounts.map fun amount => ⟨⟨"TC", "TB", amount⟩, 0, [1], [2]⟩

def book (name : String) : WalletBook := OrderedMap.empty.insert name ⟨[3], [4]⟩

/-- In every tree there is something that no saver wrote. -/
def littered : Store where
  blocks := .ofList [([9, 9], [255])]
  pending := .ofList [([], [255])]
  wallets := .ofList [([255], [])]

/-- Each kind is saved twice, and the second time it is shorter. The heights of the second chain
have two bytes that change, and then three. -/
def saves : List Save :=
  [.pool (pool [3, 2, 1]), .chain (chain [0, 1, 2, 3]), .wallets (book "Alice"),
    .chain (chain [255, 256, 65536]), .wallets (book "Bob"), .pool (pool [1, 2])]

end Replacing

open Replacing in
/-- The shorter saves are what is loaded, and trees that no save went to are loaded as before. -/
theorem load_saveAll_replacing :
    (littered.saveAll saves).loadPool = .ok (pool [1, 2]) ∧
      (littered.saveAll saves).loadWallets = .ok (book "Bob") ∧
      (littered.saveAll saves).loadChain = .ok (some (chain [255, 256, 65536])) ∧
      (littered.saveAll (saves.take 1)).loadChain = littered.loadChain ∧
      (littered.saveAll [.chain []]).loadChain = .ok none ∧
      (littered.saveAll [.chain []]).loadPool = littered.loadPool ∧
      (littered.saveAll [.chain []]).loadWallets = littered.loadWallets := by
  obtain ⟨hpool, hwallets, hchain, -⟩ := load_saveAll littered saves
  obtain ⟨-, -, -, -, -, hold, -⟩ := load_saveAll littered (saves.take 1)
  obtain ⟨-, -, hcleared, hwaiting, hkept, -⟩ := load_saveAll littered [.chain []]
  exact ⟨hpool _ rfl (by decide), hwallets _ rfl (by decide), hchain _ rfl (by decide) (by decide),
    hold rfl, hcleared _ rfl (by decide) (by decide), hwaiting rfl, hkept rfl⟩

end Store

end WorkLedger
