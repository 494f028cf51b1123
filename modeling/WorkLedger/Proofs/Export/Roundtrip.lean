import WorkLedger.Export
import WorkLedger.Proofs.Json.Fields

/-! Exports, read back. A block is written as a record of values with digits for its bytes; each
value is read as what was written, each record as the one before it became text, and the digits as
the bytes. Nothing is asked of the blocks. -/

namespace WorkLedger

/-! ## Digits -/

namespace Hex

/-- A digit is one byte in UTF-8, and that byte has the digit's value. -/
theorem value?_utf8_digit :
    ∀ n < 16, (String.utf8EncodeChar (digit n)).map value? = [some n] := by decide

/-- The UTF-8 bytes of the digits of some bytes. -/
def spelled (bytes : Bytes) : Bytes := (bytes.flatMap encodeByte).flatMap String.utf8EncodeChar

theorem ofText_encode (bytes : Bytes) : Bytes.ofText (encode bytes) = spelled bytes := by
  simp [Bytes.ofText, encode, spelled, String.toUTF8, String.ofList, List.utf8Encode]

/-- Two bytes stand for one. -/
theorem spelled_cons (b : UInt8) (bytes : Bytes) :
    ∃ high low, spelled (b :: bytes) = high :: low :: spelled bytes ∧
      value? high = some (b.toNat / 16) ∧ value? low = some (b.toNat % 16) := by
  have hb : b.toNat < 256 := b.toNat_lt
  have hhigh := value?_utf8_digit (b.toNat / 16) (by omega)
  have hlow := value?_utf8_digit (b.toNat % 16) (by omega)
  obtain ⟨high, hhigh, hh⟩ := List.map_eq_singleton_iff.mp hhigh
  obtain ⟨low, hlow, hl⟩ := List.map_eq_singleton_iff.mp hlow
  refine ⟨high, low, ?_, hh, hl⟩
  simp only [spelled, encodeByte, List.flatMap_cons, hhigh, hlow, List.nil_append,
    List.cons_append]

theorem length_spelled (bytes : Bytes) : (spelled bytes).length = 2 * bytes.length := by
  induction bytes with
  | nil => rfl
  | cons b bytes ih =>
    obtain ⟨high, low, he, _⟩ := spelled_cons b bytes
    rw [he, List.length_cons, List.length_cons, ih, List.length_cons, Nat.mul_succ]

theorem decodePairs_spelled (position : Nat) (bytes : Bytes) :
    decodePairs position (spelled bytes) = .ok bytes := by
  induction bytes generalizing position with
  | nil => rfl
  | cons b bytes ih =>
    obtain ⟨high, low, he, hh, hl⟩ := spelled_cons b bytes
    have hb : UInt8.ofNat (16 * (b.toNat / 16) + b.toNat % 16) = b := by
      rw [Nat.div_add_mod, UInt8.ofNat_toNat]
    rw [he, decodePairs, hh, hl]
    dsimp only
    rw [ih, hb]
    rfl

theorem decode_encode (bytes : Bytes) : decode (encode bytes) = .ok bytes := by
  have heven : ¬(spelled bytes).length % 2 = 1 := by
    rw [length_spelled]
    omega
  rw [decode, ofText_encode, if_neg heven, decodePairs_spelled]

end Hex

namespace Export

open Json (Value Fields Spells mapM_map_eq_pure_self)

theorem bytes_encode (bs : Bytes) : bytes (Hex.encode bs) = .ok bs := by
  rw [bytes, Hex.decode_encode]
  rfl

/-! ## Records -/

/-- A transaction as it is written. -/
def TransactionRecord.ofTransaction (t : Transaction) : TransactionRecord where
  transfer := t.transfer
  timestamp := t.timestamp
  signature := Hex.encode t.signature
  publicKey := Hex.encode t.publicKey

/-- A block as it is written. -/
def BlockRecord.ofBlock (b : Block) : BlockRecord where
  height := b.height
  timestamp := b.timestamp
  digest := b.digest
  nonce := b.nonce
  previousHash := b.previousHash
  hash := b.hash
  minerName := b.minerName
  reward := b.reward
  transactions := b.transactions.map TransactionRecord.ofTransaction

theorem transaction_ofTransaction (t : Transaction) :
    (TransactionRecord.ofTransaction t).transaction = .ok t := by
  rw [TransactionRecord.transaction, TransactionRecord.ofTransaction, bytes_encode, bytes_encode]
  rfl

theorem block_ofBlock (b : Block) : (BlockRecord.ofBlock b).block = .ok b := by
  have ht : (BlockRecord.ofBlock b).transactions.mapM TransactionRecord.transaction =
      .ok b.transactions := mapM_map_eq_pure_self transaction_ofTransaction b.transactions
  rw [BlockRecord.block, ht]
  rfl

/-! ## Values -/

theorem spells_uint32 (n : UInt32) : Spells uint32? (natural n.toNat) n := by
  have h := (Spells.natural n.toNat_lt_size).map UInt32.ofNat
  rwa [UInt32.ofNat_toNat] at h

theorem spells_uint64 (n : UInt64) : Spells uint64? (natural n.toNat) n := by
  have h := (Spells.natural n.toNat_lt_size).map UInt64.ofNat
  rwa [UInt64.ofNat_toNat] at h

theorem spells_int64 (n : Int64) : Spells int64? (.integer n.toInt) n := by
  have h := (Spells.integer n.minValue_le_toInt n.toInt_le).map Int64.ofInt
  rwa [Int64.ofInt_toInt] at h

/-- The fields of a transaction, by name. -/
def transactionFields (t : Transaction) : Fields :=
  [("sender", .ofText t.sender), ("receiver", .ofText t.receiver),
    ("amount", natural t.amount.toNat), ("Timestamp", .integer t.timestamp.toInt),
    ("Signature", .ofText (Hex.encode t.signature)),
    ("PublicKey", .ofText (Hex.encode t.publicKey))]

theorem spells_transaction (t : Transaction) :
    Spells transactionRecord? (transactionValue t) (.ofTransaction t) := by
  have hsender := Spells.text t.sender
  have hreceiver := Spells.text t.receiver
  have hamount := spells_uint64 t.amount
  have htime := spells_int64 t.timestamp
  have hsignature := Spells.text (Hex.encode t.signature)
  have hkey := Spells.text (Hex.encode t.publicKey)
  have hobject : Spells (Value.fields? ["sender", "receiver", "amount", "Timestamp", "Signature",
      "PublicKey"]) (transactionValue t) (transactionFields t) := by
    refine Spells.object (transactionFields t) (by decide) rfl ?_
    simp only [transactionFields, List.forall_mem_cons]
    exact ⟨hsender.plain, hreceiver.plain, hamount.plain, htime.plain, hsignature.plain,
      hkey.plain, List.forall_mem_nil _⟩
  have hrecord : TransactionRecord.ofTransaction t = ⟨⟨t.sender, t.receiver, t.amount⟩,
      t.timestamp, Hex.encode t.signature, Hex.encode t.publicKey⟩ := rfl
  refine ⟨hobject.plain, ?_⟩
  rw [transactionRecord?, hobject.reads, hrecord]
  simp [Fields.required, transactionFields, List.lookup_cons, hsender.reads, hreceiver.reads,
    hamount.reads, htime.reads, hsignature.reads, hkey.reads]

/-- The fields of a reward, by name. -/
def rewardFields (r : Reward) : Fields :=
  [("miner", .ofText r.miner), ("reward", natural r.amount.toNat)]

theorem rewardValue_eq (r : Reward) : rewardValue (some r) = .object (rewardFields r).members := rfl

theorem spells_reward (r : Option Reward) : Spells reward? (rewardValue r) r := by
  cases r with
  | none => exact ⟨.null, rfl⟩
  | some r =>
    have hminer := Spells.text r.miner
    have hamount := spells_uint64 r.amount
    have hobject : Spells (Value.fields? ["miner", "reward"]) (.object (rewardFields r).members)
        (rewardFields r) := by
      refine Spells.object (rewardFields r) (by decide) rfl ?_
      simp only [rewardFields, List.forall_mem_cons]
      exact ⟨hminer.plain, hamount.plain, List.forall_mem_nil _⟩
    refine ⟨hobject.plain, ?_⟩
    rw [rewardValue_eq, reward?, hobject.reads]
    · simp [Fields.required, rewardFields, List.lookup_cons, hminer.reads, hamount.reads]
    · -- An object is not what stands for no reward.
      simp

/-- The fields of a block, by name. -/
def blockFields (b : Block) : Fields :=
  [("Id", natural b.height.toNat), ("Timestamp", .integer b.timestamp.toInt),
    ("TransactionsHash", .ofText b.digest), ("nonce", natural b.nonce.toNat),
    ("prevHash", .ofText b.previousHash), ("blockHash", .ofText b.hash),
    ("minerName", .ofText b.minerName), ("MinerReward", rewardValue b.reward),
    ("Transactions", .array (b.transactions.map transactionValue))]

theorem spells_block (b : Block) : Spells blockRecord? (blockValue b) (.ofBlock b) := by
  have hheight := spells_uint32 b.height
  have htime := spells_int64 b.timestamp
  have hdigest := Spells.text b.digest
  have hnonce := spells_uint64 b.nonce
  have hprevious := Spells.text b.previousHash
  have hhash := Spells.text b.hash
  have hminer := Spells.text b.minerName
  have hreward := spells_reward b.reward
  have htransactions := Spells.list spells_transaction b.transactions
  have hobject : Spells (Value.fields? ["Id", "Timestamp", "TransactionsHash", "nonce", "prevHash",
      "blockHash", "minerName", "MinerReward", "Transactions"]) (blockValue b) (blockFields b) := by
    refine Spells.object (blockFields b) (by decide) rfl ?_
    simp only [blockFields, List.forall_mem_cons]
    exact ⟨hheight.plain, htime.plain, hdigest.plain, hnonce.plain, hprevious.plain, hhash.plain,
      hminer.plain, hreward.plain, htransactions.plain, List.forall_mem_nil _⟩
  refine ⟨hobject.plain, ?_⟩
  rw [blockRecord?, hobject.reads, BlockRecord.ofBlock]
  simp [Fields.required, Fields.withDefault, blockFields, List.lookup_cons, hheight.reads,
    htime.reads, hdigest.reads, hnonce.reads, hprevious.reads, hhash.reads, hminer.reads,
    hreward.reads, htransactions.reads]

/-! ## Chains -/

/-- Whatever the blocks are, the document they are written to spells them and nothing else. -/
theorem read_write (blocks : List Block) : read (write blocks) = .ok blocks := by
  have hdocument : (Value.ofText? (write blocks)).bind (Value.list? blockRecord?) =
      some (blocks.map BlockRecord.ofBlock) := (Spells.list spells_block blocks).ofText?
  rw [read, hdocument]
  exact mapM_map_eq_pure_self block_ofBlock blocks

end Export

end WorkLedger
