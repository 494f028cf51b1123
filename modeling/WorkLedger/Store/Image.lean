import WorkLedger.Binary
import WorkLedger.Store

/-! A store as one byte string, the form in which it lies on a disk. The document is a file of its
own and not part of it. -/

namespace WorkLedger.Store

def image (s : Store) : Bytes :=
  Binary.encode [s.blocks.entries, s.pending.entries, s.wallets.entries]

def ofImage? (bytes : Bytes) : Option Store :=
  match (Binary.read? bytes : Option (List (List (Bytes × Bytes)))) with
  | some [blocks, pending, wallets] => some ⟨.ofList blocks, .ofList pending, .ofList wallets, none⟩
  | _ => none

end WorkLedger.Store
