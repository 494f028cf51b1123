import WorkLedger.Binary
import WorkLedger.Block

/-! Binary records of transactions, rewards and blocks: their fields one after the other. -/

namespace WorkLedger

open Binary

instance : Binary Transfer where
  encode t := encode t.sender ++ encode t.receiver ++ encode t.amount
  decode bytes := do
    let (sender, bytes) ← decode bytes
    let (receiver, bytes) ← decode bytes
    let (amount, bytes) ← decode bytes
    return (⟨sender, receiver, amount⟩, bytes)

instance : Binary Transaction where
  encode t := encode t.transfer ++ encode t.timestamp ++ encode t.signature ++ encode t.publicKey
  decode bytes := do
    let (transfer, bytes) ← decode bytes
    let (timestamp, bytes) ← decode bytes
    let (signature, bytes) ← decode bytes
    let (publicKey, bytes) ← decode bytes
    return (⟨transfer, timestamp, signature, publicKey⟩, bytes)

instance : Binary Reward where
  encode r := encode r.miner ++ encode r.amount
  decode bytes := do
    let (miner, bytes) ← decode bytes
    let (amount, bytes) ← decode bytes
    return (⟨miner, amount⟩, bytes)

instance : Binary Block where
  encode b := encode b.height ++ encode b.timestamp ++ encode b.digest ++ encode b.nonce ++
    encode b.previousHash ++ encode b.hash ++ encode b.minerName ++ encode b.reward ++
    encode b.transactions
  decode bytes := do
    let (height, bytes) ← decode bytes
    let (timestamp, bytes) ← decode bytes
    let (digest, bytes) ← decode bytes
    let (nonce, bytes) ← decode bytes
    let (previousHash, bytes) ← decode bytes
    let (hash, bytes) ← decode bytes
    let (minerName, bytes) ← decode bytes
    let (reward, bytes) ← decode bytes
    let (transactions, bytes) ← decode bytes
    return (⟨height, timestamp, digest, nonce, previousHash, hash, minerName, reward, transactions⟩,
      bytes)

end WorkLedger
