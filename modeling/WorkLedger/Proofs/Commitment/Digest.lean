import Mathlib.Data.List.Forall2
import WorkLedger.Proofs.Commitment.Chain

/-! What a digest binds. The digest of a list of transactions covers who pays whom how much and
when, at each place of the list, and how many places there are. It does not cover signatures and
keys: lists that differ in nothing else share it, and no others do unless two hashes collide. -/

namespace WorkLedger

/-- The two move the same coins between the same parties at the same time. -/
structure Transaction.Agree (t u : Transaction) : Prop where
  sender : t.sender = u.sender
  receiver : t.receiver = u.receiver
  amount : t.amount = u.amount
  timestamp : t.timestamp = u.timestamp

theorem Transaction.content_eq_iff {t u : Transaction} : t.content = u.content ↔ t.Agree u := by
  obtain ⟨⟨sender, receiver, amount⟩, timestamp, _, _⟩ := t
  obtain ⟨⟨sender', receiver', amount'⟩, timestamp', _, _⟩ := u
  constructor
  · intro h
    obtain ⟨ht, hm⟩ := Prod.mk.inj h
    obtain ⟨hs, hr, ha⟩ := Transfer.mk.inj ht
    exact ⟨hs, hr, ha, hm⟩
  · rintro ⟨hs, hr, ha, hm⟩
    cases hs
    cases hr
    cases ha
    cases hm
    rfl

theorem map_content_eq_iff {ts us : List Transaction} :
    ts.map Transaction.content = us.map Transaction.content ↔
      List.Forall₂ Transaction.Agree ts us := by
  rw [← List.forall₂_eq_eq_eq, List.forall₂_map_left_iff, List.forall₂_map_right_iff]
  simp only [Transaction.content_eq_iff]

theorem transactionsDigest_of_agree {ts us : List Transaction}
    (h : List.Forall₂ Transaction.Agree ts us) : transactionsDigest ts = transactionsDigest us := by
  have key (xs : List Transaction) : xs.map Transaction.text =
      (xs.map Transaction.content).map fun c => Transaction.signedText c.1 c.2 := by
    rw [List.map_map]
    rfl
  refine Ledger.transactionsDigest_congr ?_
  rw [key, map_content_eq_iff.mpr h, ← key]

/-- Without a collision, lists with one digest are of one length, so no list shares its digest with
the empty one. Between addresses, they agree place by place on sender, receiver, amount and time;
and lists that do have one digest. -/
theorem transactionsDigest_binds {ts us : List Transaction}
    (hf : CollisionFree (digestTexts ts ++ digestTexts us)) :
    (transactionsDigest ts = transactionsDigest us →
      ts.length = us.length ∧ (ts = [] ↔ us = [])) ∧
    ((∀ t ∈ ts ++ us, t.Spelled) →
      (transactionsDigest ts = transactionsDigest us ↔
        List.Forall₂ Transaction.Agree ts us)) := by
  constructor
  · intro h
    have hl : ts.length = us.length := by
      simpa using congrArg List.length (texts_eq_of_transactionsDigest_eq hf h)
    refine ⟨hl, ?_⟩
    rw [← List.length_eq_zero_iff, hl, List.length_eq_zero_iff]
  · intro hs
    refine ⟨fun h => map_content_eq_iff.mp ?_, transactionsDigest_of_agree⟩
    exact contents_eq_of_transactionsDigest_eq hf (fun t ht => hs t (List.mem_append_left _ ht))
      (fun u hu => hs u (List.mem_append_right _ hu)) h

/-- The transaction without anything that shows who made it. -/
def Transaction.bare (t : Transaction) : Transaction := { t with signature := [], publicKey := [] }

namespace Ledger.KeySwap

/-- A part of the payment goes back. -/
def refund : Transaction where
  transfer := ⟨payment.receiver, payment.sender, 10⟩
  timestamp := 1500000003500
  signature := []
  publicKey := payment.publicKey

/-- The texts that are hashed for the two of them, in either order. -/
def exchangeTexts : List String :=
  [digestText [payment, refund], digestText [refund, payment], payment.text, refund.text]

theorem collisionFree_exchange : CollisionFree exchangeTexts := by
  refine collisionFree_of_nodup ?_
  simp only [exchangeTexts, digestText_eq, List.map_cons, List.map_nil, sha256Hex_eq]
  decide +kernel

end Ledger.KeySwap

open Ledger.KeySwap in
/-- Two transactions share their digest with themselves under no signatures and no keys, but not
with themselves in the other order. -/
theorem transactionsDigest_binds_bare :
    let ts := [payment, refund]
    let us := [payment.bare, refund.bare]
    let vs := [refund, payment]
    (ts ≠ us ∧ CollisionFree (digestTexts ts ++ digestTexts us) ∧ (∀ t ∈ ts ++ us, t.Spelled) ∧
      transactionsDigest ts = transactionsDigest us ∧ List.Forall₂ Transaction.Agree ts us) ∧
    CollisionFree (digestTexts ts ++ digestTexts vs) ∧ (∀ t ∈ ts ++ vs, t.Spelled) ∧
      transactionsDigest ts ≠ transactionsDigest vs := by
  intro ts us vs
  have hsame : digestTexts us = digestTexts ts := rfl
  have hu : CollisionFree (digestTexts ts ++ digestTexts us) := by
    rw [hsame]
    exact collisionFree_exchange.mono (by simp [ts, digestTexts, exchangeTexts])
  have hv : CollisionFree (digestTexts ts ++ digestTexts vs) :=
    collisionFree_exchange.mono (by simp [ts, vs, digestTexts, exchangeTexts])
  have hsu : ∀ t ∈ ts ++ us, t.Spelled := by decide
  have hsv : ∀ t ∈ ts ++ vs, t.Spelled := by decide
  have hd : transactionsDigest ts = transactionsDigest us := Ledger.transactionsDigest_congr rfl
  refine ⟨⟨by decide, hu, hsu, hd, ((transactionsDigest_binds hu).2 hsu).mp hd⟩, hv, hsv, ?_⟩
  rw [ne_eq, (transactionsDigest_binds hv).2 hsv]
  intro h
  have hfirst := (List.forall₂_cons.mp h).1.amount
  revert hfirst
  decide

end WorkLedger
