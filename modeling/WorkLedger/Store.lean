import WorkLedger.Export
import WorkLedger.WalletBook

/-! What is kept between runs: three trees of byte strings, one for blocks, one for pending
transactions and one for wallets, and a document beside them for other programs. Saving replaces a
whole tree at once. Heights and places are written with the most significant byte first, so the
order of the keys is the order of the numbers. -/

namespace WorkLedger

abbrev Tree := OrderedMap Bytes Bytes

/-- A key with its new value, or with none to drop it. -/
abbrev Change := Bytes × Option Bytes

namespace Tree

def change (tree : Tree) : Change → Tree
  | (key, some value) => tree.insert key value
  | (key, none) => tree.erase key

/-- Makes changes in their order, all or none of them. -/
def changeAll (tree : Tree) (changes : List Change) : Tree := changes.foldl change tree

/-- Drops every key that is there, and writes the new entries. -/
def replacement (tree : Tree) (entries : List (Bytes × Bytes)) : List Change :=
  (tree.keys.map fun key => (key, none)) ++ entries.map fun e => (e.1, some e.2)

end Tree

inductive TreeName
  | blocks
  | pending
  | wallets
  deriving Repr, DecidableEq

structure Store where
  blocks : Tree := .empty
  pending : Tree := .empty
  wallets : Tree := .empty
  /-- The chain as it was last written for other programs. -/
  document : Option String := none

/-- New content for one tree. -/
structure Write where
  name : TreeName
  entries : List (Bytes × Bytes)

/-- The entries of a saved chain: a block under its height. -/
def Write.chain (blocks : List Block) : Write :=
  ⟨.blocks, blocks.map fun b => (Bytes.bigEndian 4 b.height.toNat, Binary.encode b)⟩

/-- The entries of a saved pool: a transaction under its place. -/
def Write.pool (pool : List Transaction) : Write :=
  ⟨.pending, pool.zipIdx.map fun (t, place) => (Bytes.bigEndian 8 place, Binary.encode t)⟩

/-- The entries of saved wallets: a wallet under its name. -/
def Write.wallets (book : WalletBook) : Write :=
  ⟨.wallets, book.entries.map fun (name, wallet) => (Bytes.ofText name, Binary.encode wallet)⟩

namespace Store

def empty : Store := {}

def tree (s : Store) : TreeName → Tree
  | .blocks => s.blocks
  | .pending => s.pending
  | .wallets => s.wallets

def withTree (s : Store) (name : TreeName) (tree : Tree) : Store :=
  match name with
  | .blocks => { s with blocks := tree }
  | .pending => { s with pending := tree }
  | .wallets => { s with wallets := tree }

/-- Puts an entry into a tree as it is. -/
def put (s : Store) (name : TreeName) (key value : Bytes) : Store :=
  s.withTree name ((s.tree name).insert key value)

def write (s : Store) (w : Write) : Store :=
  let tree := s.tree w.name
  s.withTree w.name (tree.changeAll (tree.replacement w.entries))

def writeAll (s : Store) (ws : List Write) : Store := ws.foldl write s

def saveChain (s : Store) (blocks : List Block) : Store := s.write (.chain blocks)
def savePool (s : Store) (pool : List Transaction) : Store := s.write (.pool pool)
def saveWallets (s : Store) (book : WalletBook) : Store := s.write (.wallets book)

/-- The name of the document. -/
def documentName : String := "blockchain.json"

/-- Writes the document. -/
def writeDocument (s : Store) (blocks : List Block) : Store :=
  { s with document := some (Export.write blocks) }

/-- The record that stored bytes spell. -/
def readRecord {α : Type} [Binary α] (bytes : Bytes) : Except Error α :=
  match Binary.read? bytes with
  | some record => .ok record
  | none => .error .unreadableRecord

/-- The stored blocks by height, or none if none were stored. -/
def loadChain (s : Store) : Except Error (Option (List Block)) := do
  if s.blocks.isEmpty then return none
  let blocks ← s.blocks.values.mapM readRecord
  return some blocks

/-- The stored transactions in the order they were saved in. -/
def loadPool (s : Store) : Except Error (List Transaction) := s.pending.values.mapM readRecord

def readNamed (entry : Bytes × Bytes) : Except Error (String × Wallet) :=
  match Bytes.toText? entry.1 with
  | none => .error (.database "Invalid wallet name")
  | some name => do
    let wallet ← readRecord entry.2
    return (name, wallet)

def loadWallets (s : Store) : Except Error WalletBook := do
  let entries ← s.wallets.entries.mapM readNamed
  return .ofEntries entries

end Store

end WorkLedger
