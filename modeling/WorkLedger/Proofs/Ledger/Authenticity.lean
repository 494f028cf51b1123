import WorkLedger.Proofs.Commitment.Evaluation
import WorkLedger.Proofs.Ledger.Accounting

/-! Authenticity. A signature is checked when a transaction is let in, and a block is only compared
with the pool. The comparison leaves the key out, as does the digest, so what a block puts on the
chain is the transaction that was checked, but under a key of the block's own choice. -/

namespace WorkLedger.Ledger

open Transaction (identity)

/-- The candidate that is accepted carries its transactions as they are pending, keys included. -/
def CopiesPending (l : Ledger) (c : Call) : Prop :=
  l.takes c = true → ∀ t ∈ c.carried, t ∈ l.pool

/-- Each key in the candidate that is accepted checks the signature that is pending beside it. -/
def KeysVerify (l : Ledger) (c : Call) : Prop :=
  l.takes c = true → ∀ t ∈ c.carried, ∀ u ∈ l.pool, u.identity = t.identity →
    Signature.verify t.publicKey u.signature (Bytes.ofText u.text) = true

instance (l : Ledger) (c : Call) : Decidable (l.CopiesPending c) :=
  inferInstanceAs (Decidable (l.takes c = true → ∀ t ∈ c.carried, t ∈ l.pool))

instance (l : Ledger) (c : Call) : Decidable (l.KeysVerify c) :=
  inferInstanceAs (Decidable (l.takes c = true → ∀ t ∈ c.carried, ∀ u ∈ l.pool,
    u.identity = t.identity →
      Signature.verify t.publicKey u.signature (Bytes.ofText u.text) = true))

def PoolSigned (l : Ledger) : Prop := ∀ t ∈ l.pool, t.isSigned = true

variable {l : Ledger}

/-- Of a copy of `u`, only the key matters to the check. -/
theorem isSigned_of_identity_eq {t u : Transaction} (h : u.identity = t.identity) :
    t.isSigned = Signature.verify t.publicKey u.signature (Bytes.ofText u.text) := by
  obtain ⟨ht, hm, hs⟩ := Transaction.Identity.mk.inj h
  rw [Transaction.isSigned, Transaction.text, Transaction.text, ht, hm, hs]

theorem PoolSigned.enqueue (h : l.PoolSigned) {t : Transaction} (ht : t.isSigned = true) :
    (l.enqueue t).PoolSigned := by
  intro u hu
  rcases List.mem_append.mp hu with hu | hu
  · exact h u hu
  · rw [List.mem_singleton.mp hu]
    exact ht

theorem PoolSigned.extend (h : l.PoolSigned) (b : Block) : (l.extend b).PoolSigned :=
  fun u hu => h u (Pool.mem_of_mem_removeIncluded hu)

/-- The signatures of an accepted block check out exactly if its keys do. -/
theorem allSigned_iff_keysVerify {b : Block} {now : Int64} (ht : l.takes (.append b now) = true)
    (hb : Acceptance.backedBy b.transactions l.pool = true) :
    Acceptance.allSigned b = true ↔ l.KeysVerify (.append b now) := by
  rw [Acceptance.allSigned, List.all_eq_true]
  constructor
  · intro h _ t hm u _ hi
    rw [← isSigned_of_identity_eq hi]
    exact h t hm
  · intro h t hm
    obtain ⟨u, hu, hi⟩ := Acceptance.exists_pending hb hm
    rw [isSigned_of_identity_eq hi]
    exact h ht t hm u hu hi

theorem CopiesPending.keysVerify (h : l.PoolSigned) {c : Call} (hc : l.CopiesPending c) :
    l.KeysVerify c := by
  intro ht t hm u _ hi
  rw [← isSigned_of_identity_eq hi]
  exact h t (hc ht t hm)

/-! ## Blocks under other keys -/

theorem map_text_eq {ts us : List Transaction} (h : ts.map identity = us.map identity) :
    ts.map Transaction.text = us.map Transaction.text := by
  have key (xs : List Transaction) : xs.map Transaction.text =
      (xs.map identity).map fun i => Transaction.signedText i.transfer i.timestamp := by
    rw [List.map_map]
    rfl
  rw [key, h, ← key]

/-- A digest depends on nothing but the texts. -/
theorem transactionsDigest_congr {ts us : List Transaction}
    (h : ts.map Transaction.text = us.map Transaction.text) :
    transactionsDigest ts = transactionsDigest us := by
  have hm : ts.map (sha256Hex ∘ Transaction.text) = us.map (sha256Hex ∘ Transaction.text) := by
    rw [← List.map_map, h, List.map_map]
  cases ts with
  | nil => rw [List.map_eq_nil_iff.mp h.symm]
  | cons t ts =>
    cases us with
    | nil => cases h
    | cons u us => exact congrArg (fun hashes => sha256Hex ("\n".intercalate hashes)) hm

/-- No rule looks at a key: what is accepted is accepted with any other keys in it as well. -/
theorem Acceptable.under_keys {b : Block} {now : Int64} (h : l.Acceptable b now)
    {ts : List Transaction} (hi : ts.map identity = b.transactions.map identity) :
    l.Acceptable { b with transactions := ts } now where
  next := h.next
  past := h.past
  fits :=
    { linked := h.fits.linked
      worked := h.fits.worked
      digested := (transactionsDigest_congr (map_text_eq hi)).trans h.fits.digested
      hashed := h.fits.hashed }
  rewarded := h.rewarded
  backed := by
    rw [Acceptance.backedBy_iff, hi]
    exact Acceptance.backedBy_iff.mp h.backed

/-! ## Runs -/

/-- A run adds blocks with good signatures exactly if its keys check out throughout. -/
theorem allSigned_run_from_iff (l : Ledger) (calls : List Call) :
    (∀ b ∈ mined (l.run calls).chain, Acceptance.allSigned b = true) ↔
      (∀ b ∈ mined l.chain, Acceptance.allSigned b = true) ∧ l.Throughout KeysVerify calls := by
  induction calls generalizing l with
  | nil => exact ⟨fun h => ⟨h, trivial⟩, fun h => h.1⟩
  | cons c rest ih =>
    rw [run, List.foldl_cons, ← run, ih, Throughout]
    rcases l.perform_cases c with ⟨ht, hp⟩ | ⟨t, rfl, ht, _, hp⟩ | ⟨b, now, rfl, ht, ha, hp⟩
    -- A call that puts no block on top asks for no key.
    · have hk : l.KeysVerify c := fun hy => by rw [ht] at hy; cases hy
      rw [hp]
      exact ⟨fun h => ⟨h.1, hk, h.2⟩, fun h => ⟨h.1, h.2.2⟩⟩
    · have hk : l.KeysVerify (.submit t) := fun _ u hu => absurd hu List.not_mem_nil
      rw [hp]
      exact ⟨fun h => ⟨h.1, hk, h.2⟩, fun h => ⟨h.1, h.2.2⟩⟩
    · have hm : mined (l.extend b).chain = mined l.chain ++ [b] := mined_append l.chain_ne_nil [b]
      rw [hp, hm, List.forall_mem_append, List.forall_mem_singleton,
        allSigned_iff_keysVerify ht ha.backed, and_assoc]

theorem allSigned_run_iff (difficulty : Nat) (calls : List Call) :
    (∀ b ∈ mined ((withDifficulty difficulty).run calls).chain, Acceptance.allSigned b = true) ↔
      (withDifficulty difficulty).Throughout KeysVerify calls := by
  rw [allSigned_run_from_iff]
  exact and_iff_right fun b hb => absurd hb List.not_mem_nil

/-- Copies of what is pending need no look at their keys, since the pool was checked. -/
theorem keysVerify_run {difficulty : Nat} {calls : List Call}
    (hc : (withDifficulty difficulty).Throughout CopiesPending calls) :
    (withDifficulty difficulty).Throughout KeysVerify calls :=
  hc.imp (P := PoolSigned) (fun _ _ h ha => h.enqueue ha.signed) (fun _ b _ h _ => h.extend b)
    (fun _ _ h hk => hk.keysVerify h) fun _ ht => absurd ht List.not_mem_nil

theorem admitted_signed (difficulty : Nat) (calls : List Call) :
    ∀ u ∈ (withDifficulty difficulty).admitted calls, u.isSigned = true := by
  refine run_invariant (P := fun _ log => ∀ u ∈ log, u.isSigned = true) ?_ ?_ [] ?_
    (throughout_true (withDifficulty difficulty) calls)
  · intro l log t h ha
    exact List.forall_mem_append.mpr ⟨h, List.forall_mem_singleton.mpr ha.signed⟩
  · exact fun _ _ _ _ h _ _ _ => h
  · exact fun u hu => absurd hu List.not_mem_nil

/-- What is on the chain was let in, and its signature was checked then, under the key it had. -/
theorem history_admitted (difficulty : Nat) (calls : List Call) :
    ∀ t ∈ history ((withDifficulty difficulty).run calls).chain,
      ∃ u ∈ (withDifficulty difficulty).admitted calls,
        u.identity = t.identity ∧ u.isSigned = true := by
  intro t ht
  have hm : t.identity ∈ ((withDifficulty difficulty).run calls).holdings.map identity :=
    List.mem_map_of_mem (List.mem_append_left _ ht)
  obtain ⟨u, hu, hi⟩ := List.mem_map.mp
    ((accounted_run difficulty calls).perm.mem_iff.mp hm)
  exact ⟨u, hu, hi, admitted_signed difficulty calls u hu⟩

/-! ## A payment under any key -/

namespace KeySwap

/-- Mints the coins that are paid. -/
def funding : Block where
  height := 1
  timestamp := 1500000001000
  digest := "6ca1aa5edf136278a39a5593cdae47d776a5b8d489f23de573eb7c90f6c7f9a0"
  nonce := 248
  previousHash := "0"
  hash := "00c96998c451c433132c0aea8d485584287485c10741b0363ad1c8a62ffeaf48"
  minerName := "Miner 0"
  reward := some ⟨"1PCdcx5Yf8mf4Y4xidgdE5idZaprqBt6BW", 100⟩
  transactions := []

def payment : Transaction where
  transfer := ⟨"1PCdcx5Yf8mf4Y4xidgdE5idZaprqBt6BW", "SC", 30⟩
  timestamp := 1500000001500
  signature :=
    [48, 69, 2, 32, 82, 98, 121, 35, 74, 186, 243, 60, 164, 20, 56, 47, 167, 101, 126, 240, 10,
    210, 26, 163, 132, 232, 151, 68, 26, 190, 144, 118, 169, 30, 13, 91, 2, 33, 0, 187, 73, 207,
    209, 41, 124, 142, 103, 81, 68, 209, 63, 2, 142, 101, 71, 6, 129, 189, 100, 167, 3, 54, 20,
    170, 128, 137, 192, 244, 101, 84, 89]
  publicKey :=
    [4, 78, 135, 252, 107, 45, 216, 237, 233, 73, 66, 225, 153, 140, 214, 208, 117, 2, 202, 217,
    151, 153, 83, 178, 54, 228, 48, 144, 13, 186, 219, 26, 92, 189, 49, 171, 2, 178, 108, 172,
    35, 86, 140, 107, 227, 127, 154, 89, 191, 245, 14, 247, 38, 67, 134, 145, 235, 35, 47, 53,
    66, 29, 214, 233, 53]

/-- The other key that verifies the signature of the payment. A signature leaves two. -/
def secondKey : Bytes :=
  [4, 198, 74, 102, 197, 65, 192, 147, 129, 38, 64, 36, 149, 252, 41, 68, 201, 33, 99, 199, 210, 91,
  130, 240, 66, 92, 0, 34, 4, 89, 101, 166, 87, 85, 92, 140, 246, 205, 173, 64, 22, 68, 82, 192,
  149, 231, 39, 137, 37, 245, 249, 128, 227, 144, 38, 179, 91, 255, 113, 250, 251, 24, 2, 102, 2]

theorem verifies : ∀ key ∈ [payment.publicKey, secondKey],
    Signature.verify key payment.signature (Bytes.ofText payment.text) = true := by
  simp only [Signature.verify_eq]
  decide +kernel

theorem secondKey_verifies :
    Signature.verify secondKey payment.signature (Bytes.ofText payment.text) = true :=
  verifies _ (List.mem_cons_of_mem _ List.mem_cons_self)

/-- Carries the payment under a key. The hash does not depend on it. -/
def settling (key : Bytes) : Block where
  height := 2
  timestamp := 1500000002000
  digest := "31f5da3f027b34792a675d4a1f5b997e6aea4ed91cf60fb8cb30191255813460"
  nonce := 102
  previousHash := funding.hash
  hash := "00033cd2092f3608de759ab960a7cd6bc375b1f69d00db0c5f581033d9be89bc"
  minerName := "Miner 1"
  reward := some ⟨"TC", 100⟩
  transactions := [{ payment with publicKey := key }]

def calls (key : Bytes) : List Call :=
  [.append funding 1600000000000, .submit payment, .append (settling key) 1600000000000]

def funded : Ledger := (withDifficulty 2).extend funding

theorem fits : Acceptance.Fits funding Block.genesis 2 ∧
    Acceptance.Fits (settling payment.publicKey) funding 2 := by
  rw [Acceptance.fits_iff, Acceptance.fits_iff]
  decide +kernel

theorem funding_acceptable : (withDifficulty 2).Acceptable funding 1600000000000 where
  next := rfl
  past := by decide
  fits := fits.1
  rewarded := rfl
  backed := rfl

theorem payment_admissible : Admission.Admissible payment funded.chain funded.pool where
  unknown := by decide
  timely := by decide
  positive := by decide
  bounded := by decide
  covered := by decide
  signed := verifies _ List.mem_cons_self

theorem settling_acceptable (key : Bytes) :
    (funded.enqueue payment).Acceptable (settling key) 1600000000000 :=
  have h : (funded.enqueue payment).Acceptable (settling payment.publicKey) 1600000000000 :=
    { next := rfl
      past := by decide
      fits := fits.2
      rewarded := rfl
      backed := by decide }
  h.under_keys rfl

theorem perform_funding : (withDifficulty 2).perform (.append funding 1600000000000) = funded :=
  (perform_append funding_acceptable).2

theorem run_pending : (withDifficulty 2).run [.append funding 1600000000000, .submit payment] =
    funded.enqueue payment := by
  rw [run, List.foldl_cons, perform_funding, List.foldl_cons, (perform_submit payment_admissible).2,
    List.foldl_nil]

theorem run_calls (key : Bytes) :
    (withDifficulty 2).run (calls key) = (funded.enqueue payment).extend (settling key) := by
  rw [calls, run, List.foldl_cons, perform_funding, List.foldl_cons,
    (perform_submit payment_admissible).2, List.foldl_cons,
    (perform_append (settling_acceptable key)).2, List.foldl_nil]

theorem size_run_calls (key : Bytes) : ((withDifficulty 2).run (calls key)).size = 2 := by
  rw [run_calls, size_extend]
  rfl

end KeySwap

end WorkLedger.Ledger
