import WorkLedger.Block
import WorkLedger.Bytes.Hex
import WorkLedger.Error
import WorkLedger.Json.Fields
import WorkLedger.Json.Printer
import WorkLedger.Json.Reader

/-! A chain as JSON for other programs, and back. Signatures and keys are written as hexadecimal
digits. Reading looks at the whole document first and at the digits after that, and it checks
nothing about the blocks. -/

namespace WorkLedger.Export

open Json (Value Fields)

/-- A transaction with its bytes still spelled in digits. -/
structure TransactionRecord where
  transfer : Transfer
  timestamp : Int64
  signature : String
  publicKey : String

/-- A block whose transactions are records. -/
structure BlockRecord where
  height : UInt32
  timestamp : Int64
  digest : String
  nonce : UInt64
  previousHash : String
  hash : String
  minerName : String
  reward : Option Reward
  transactions : List TransactionRecord

/-! ## Writing -/

def member (name : String) (value : Value) : List Char × Value := (Json.escape name.toList, value)

def natural (n : Nat) : Value := .integer n

def transactionValue (t : Transaction) : Value :=
  .object [member "sender" (.ofText t.sender), member "receiver" (.ofText t.receiver),
    member "amount" (natural t.amount.toNat), member "Timestamp" (.integer t.timestamp.toInt),
    member "Signature" (.ofText (Hex.encode t.signature)),
    member "PublicKey" (.ofText (Hex.encode t.publicKey))]

def rewardValue : Option Reward → Value
  | none => .null
  | some r => .object [member "miner" (.ofText r.miner), member "reward" (natural r.amount.toNat)]

def blockValue (b : Block) : Value :=
  .object [member "Id" (natural b.height.toNat), member "Timestamp" (.integer b.timestamp.toInt),
    member "TransactionsHash" (.ofText b.digest), member "nonce" (natural b.nonce.toNat),
    member "prevHash" (.ofText b.previousHash), member "blockHash" (.ofText b.hash),
    member "minerName" (.ofText b.minerName), member "MinerReward" (rewardValue b.reward),
    member "Transactions" (.array (b.transactions.map transactionValue))]

def write (blocks : List Block) : String := (Value.array (blocks.map blockValue)).text

/-! ## Reading -/

def uint32? (v : Value) : Option UInt32 := (v.natural? UInt32.size).map UInt32.ofNat

def uint64? (v : Value) : Option UInt64 := (v.natural? UInt64.size).map UInt64.ofNat

def int64? (v : Value) : Option Int64 :=
  (v.integer? Int64.minValue.toInt Int64.maxValue.toInt).map Int64.ofInt

def transactionRecord? (v : Value) : Option TransactionRecord := do
  let fields ← v.fields? ["sender", "receiver", "amount", "Timestamp", "Signature", "PublicKey"]
  let sender ← fields.required "sender" Value.text?
  let receiver ← fields.required "receiver" Value.text?
  let amount ← fields.required "amount" uint64?
  let timestamp ← fields.required "Timestamp" int64?
  let signature ← fields.required "Signature" Value.text?
  let publicKey ← fields.required "PublicKey" Value.text?
  return ⟨⟨sender, receiver, amount⟩, timestamp, signature, publicKey⟩

def reward? : Value → Option (Option Reward)
  | .null => some none
  | v => do
    let fields ← v.fields? ["miner", "reward"]
    let miner ← fields.required "miner" Value.text?
    let amount ← fields.required "reward" uint64?
    return some ⟨miner, amount⟩

/-- A missing reward is none. -/
def blockRecord? (v : Value) : Option BlockRecord := do
  let fields ← v.fields? ["Id", "Timestamp", "TransactionsHash", "nonce", "prevHash", "blockHash",
    "minerName", "MinerReward", "Transactions"]
  let height ← fields.required "Id" uint32?
  let timestamp ← fields.required "Timestamp" int64?
  let digest ← fields.required "TransactionsHash" Value.text?
  let nonce ← fields.required "nonce" uint64?
  let previousHash ← fields.required "prevHash" Value.text?
  let hash ← fields.required "blockHash" Value.text?
  let minerName ← fields.required "minerName" Value.text?
  let reward ← fields.withDefault "MinerReward" reward? none
  let transactions ← fields.required "Transactions" (Value.list? transactionRecord?)
  return ⟨height, timestamp, digest, nonce, previousHash, hash, minerName, reward, transactions⟩

def badDigits (fault : Hex.Fault) : Error :=
  .serialization ("Invalid hex string: " ++ fault.message)

def bytes (digits : String) : Except Error Bytes := (Hex.decode digits).mapError badDigits

def TransactionRecord.transaction (r : TransactionRecord) : Except Error Transaction := do
  let signature ← bytes r.signature
  let publicKey ← bytes r.publicKey
  return ⟨r.transfer, r.timestamp, signature, publicKey⟩

def BlockRecord.block (r : BlockRecord) : Except Error Block := do
  let transactions ← r.transactions.mapM TransactionRecord.transaction
  return ⟨r.height, r.timestamp, r.digest, r.nonce, r.previousHash, r.hash, r.minerName, r.reward,
    transactions⟩

/-- The blocks that a document spells. -/
def read (document : String) : Except Error (List Block) :=
  match (Value.ofText? document).bind (Value.list? blockRecord?) with
  | none => .error (.serialization "Invalid chain document")
  | some records => records.mapM BlockRecord.block

end WorkLedger.Export
