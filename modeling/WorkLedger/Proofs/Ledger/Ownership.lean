import WorkLedger.Payment
import WorkLedger.Proofs.Ledger.Authenticity

/-! Ownership. A wallet pays out of the address of its own key. The ledger does not ask for that: a
transaction brings the key that its signature is checked under, and none of the checks compares this
key with the sender. So whoever can sign at all can spend what any address holds. -/

namespace WorkLedger

/-- The same transfer at the same time, with a signature under some other key. -/
def Transaction.resign (t : Transaction) (signature key : Bytes) : Transaction :=
  { t with signature := signature, publicKey := key }

namespace Admission

variable {t : Transaction} {chain : List Block} {pool : List Transaction}

/-- Of all the checks, only two look at who signed: a copy must not be known yet, and the signature
must be one under the key beside it. -/
theorem Admissible.resign_iff (h : Admissible t chain pool) (signature key : Bytes) :
    Admissible (t.resign signature key) chain pool ↔
      isKnown (t.resign signature key) chain pool = false ∧
        Signature.verify key signature (Bytes.ofText t.text) = true where
  mp hr := ⟨hr.unknown, hr.signed⟩
  mpr hr :=
    { unknown := hr.1
      timely := h.timely
      positive := h.positive
      bounded := h.bounded
      covered := h.covered
      signed := hr.2 }

end Admission

/-- What a wallet makes is paid by the address of the key that comes with it. -/
theorem Wallet.sender_of_pay {w : Wallet} {receiver : String} {amount : UInt64} {m : Moment}
    {t : Transaction} (h : w.pay receiver amount m = .ok t) :
    t.sender = Address.ofPublicKey t.publicKey := by
  rw [pay] at h
  obtain ⟨time, _, h⟩ := exists_of_bind_eq_ok h
  rw [sign] at h
  obtain ⟨signature, _, h⟩ := exists_of_bind_eq_ok h
  cases h
  rfl

namespace Ledger

open KeySwap

/-- Pays out of the address of one key with the signature of another, whose address it goes to. -/
def theft : Transaction where
  transfer := ⟨payment.sender, "1DS2T9r1Dmh1FqHrjQFxgZJWbuxqn9o2WB", 30⟩
  timestamp := 1500000001500
  signature :=
    [48, 70, 2, 33, 0, 203, 247, 235, 204, 170, 192, 13, 52, 2, 230, 204, 95, 104, 36, 248, 104, 39,
    213, 20, 86, 74, 227, 251, 17, 94, 4, 177, 109, 97, 27, 210, 4, 2, 33, 0, 162, 229, 223, 201,
    76, 46, 231, 201, 126, 183, 96, 148, 95, 200, 187, 194, 160, 68, 126, 17, 49, 62, 215, 236, 159,
    200, 169, 59, 127, 69, 94, 167]
  publicKey :=
    [4, 31, 81, 75, 187, 251, 141, 215, 253, 168, 122, 31, 241, 242, 112, 229, 107, 198, 141, 56,
    126, 79, 206, 202, 189, 245, 233, 165, 245, 24, 102, 4, 161, 161, 10, 27, 52, 71, 129, 23, 126,
    35, 114, 157, 247, 21, 78, 170, 154, 61, 173, 34, 237, 239, 241, 113, 30, 250, 96, 148, 165,
    112, 174, 128, 37]

theorem theft_admissible : Admission.Admissible theft funded.chain funded.pool where
  unknown := by decide
  timely := by decide
  positive := by decide
  bounded := by decide
  covered := by decide
  signed := by
    rw [Transaction.isSigned, Signature.verify_eq]
    decide +kernel

/-- A block minted coins to the address of one key, and another key moves them to its own. -/
theorem foreign_key_spends :
    (withDifficulty 2).run [.append funding 1600000000000] = funded ∧
      payment.sender = Address.ofPublicKey payment.publicKey ∧
      theft.sender = payment.sender ∧ theft.receiver = Address.ofPublicKey theft.publicKey ∧
      funded.submit theft = .ok (funded.enqueue theft) ∧
      theft.sender ≠ Address.ofPublicKey theft.publicKey := by
  have hr : theft.receiver = Address.ofPublicKey theft.publicKey := by decide +kernel
  refine ⟨?_, by decide +kernel, rfl, hr, ?_, ?_⟩
  · rw [run, List.foldl_cons, List.foldl_nil, perform_funding]
  · exact submit_eq_ok_iff.mpr ⟨theft_admissible, rfl⟩
  · rw [← hr]
    decide

/-- What moves coins is signed, under a key that it brings along. For a transfer that was let in,
any other signature on it does as well, under any key that verifies it. The sender goes with the key
where a wallet made the transaction. -/
theorem spends_signed :
    (∀ (l l' : Ledger) (t : Transaction), l.submit t = .ok l' →
      t.isSigned = true ∧
        ∀ signature key, (∃ l'', l.submit (t.resign signature key) = .ok l'') ↔
          Admission.isKnown (t.resign signature key) l.chain l.pool = false ∧
            Signature.verify key signature (Bytes.ofText t.text) = true) ∧
    (∀ difficulty calls, ∀ t ∈ history ((withDifficulty difficulty).run calls).chain,
      ∃ key, Signature.verify key t.signature (Bytes.ofText t.text) = true) ∧
    (∀ (w : Wallet) receiver amount m t, w.pay receiver amount m = .ok t →
      t.sender = Address.ofPublicKey t.publicKey) := by
  refine ⟨fun l l' t h => ?_, fun difficulty calls t ht => ?_,
    fun _ _ _ _ _ => Wallet.sender_of_pay⟩
  · have ha := (submit_eq_ok_iff.mp h).1
    refine ⟨ha.signed, fun signature key => ?_⟩
    rw [← ha.resign_iff]
    exact ⟨fun ⟨_, hs⟩ => (submit_eq_ok_iff.mp hs).1, fun hr => ⟨_, submit_eq_ok_iff.mpr ⟨hr, rfl⟩⟩⟩
  · obtain ⟨u, _, hi, hs⟩ := history_admitted difficulty calls t ht
    refine ⟨u.publicKey, ?_⟩
    rw [← isSigned_of_identity_eq (u := t) (t := u) hi.symm]
    exact hs

/-- The payment of an owner, let in under the other key that verifies it as well. -/
theorem spends_signed_second_key :
    funded.submit payment = .ok (funded.enqueue payment) ∧ payment.isSigned = true ∧
      (∃ l, funded.submit (payment.resign payment.signature secondKey) = .ok l) ∧
      payment ∈ history ((withDifficulty 2).run (calls payment.publicKey)).chain ∧
      (∃ key, Signature.verify key payment.signature (Bytes.ofText payment.text) = true) ∧
      ∃ t, (Wallet.ofDraw 0).pay "SC" 30 ⟨1500000001500, 0⟩ = .ok t ∧
        t.sender = Address.ofPublicKey t.publicKey := by
  obtain ⟨hsubmit, hchain, hwallet⟩ := spends_signed
  have hp : funded.submit payment = .ok (funded.enqueue payment) :=
    submit_eq_ok_iff.mpr ⟨payment_admissible, rfl⟩
  obtain ⟨hs, hk⟩ := hsubmit _ _ _ hp
  have hm : payment ∈ history ((withDifficulty 2).run (calls payment.publicKey)).chain := by
    rw [run_calls]
    exact List.mem_singleton_self payment
  have hw : ((Wallet.ofDraw 0).pay "SC" 30 ⟨1500000001500, 0⟩).isOk = true := by decide +kernel
  refine ⟨hp, hs, (hk _ secondKey).mpr ⟨payment_admissible.unknown, secondKey_verifies⟩, hm,
    hchain 2 _ payment hm, ?_⟩
  cases ht : (Wallet.ofDraw 0).pay "SC" 30 ⟨1500000001500, 0⟩ with
  | error e =>
    rw [ht] at hw
    cases hw
  | ok t => exact ⟨t, rfl, hwallet _ _ _ _ _ ht⟩

end Ledger

end WorkLedger
