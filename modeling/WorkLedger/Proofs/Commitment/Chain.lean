import Mathlib.Data.List.Chain
import Mathlib.Data.List.Nodup
import WorkLedger.Proofs.Balance.Exact
import WorkLedger.Proofs.Commitment.Texts
import WorkLedger.Proofs.Ledger.SelfConsistency

/-! The tip commits to the chain. A block states the hash of the block before it and a digest of
what it carries, and its own hash covers both. So, as long as no two of the texts hashed on the way
collide, the hash of the last block settles all of the chain that balances depend on. -/

namespace WorkLedger

/-! ## Collisions -/

/-- No two of these texts have the same hash. -/
def CollisionFree (texts : List String) : Prop :=
  ∀ a ∈ texts, ∀ b ∈ texts, sha256Hex a = sha256Hex b → a = b

theorem CollisionFree.mono {texts some : List String} (h : CollisionFree texts)
    (hs : some ⊆ texts) : CollisionFree some :=
  fun a ha b hb => h a (hs ha) b (hs hb)

theorem collisionFree_of_nodup {texts : List String} (h : (texts.map sha256Hex).Nodup) :
    CollisionFree texts := by
  intro a ha b hb he
  exact List.inj_on_of_nodup_map h ha hb he

/-- The texts that are hashed for the digest of a list of transactions. -/
def digestTexts (ts : List Transaction) : List String := digestText ts :: ts.map (·.text)

/-- The texts that are hashed to verify a block. -/
def Block.hashedTexts (b : Block) : List String := b.header.text :: digestTexts b.transactions

/-- The texts that are hashed to verify the links of a chain. -/
def hashedTexts (chain : List Block) : List String := (mined chain).flatMap Block.hashedTexts

/-- Two lists that a function cannot tell apart are the same to any function that tells less. -/
theorem map_eq_of_map_eq {α β γ : Type} {f : α → β} {g : α → γ} {xs ys : List α}
    (h : xs.map f = ys.map f) (hg : ∀ x ∈ xs, ∀ y ∈ ys, f x = f y → g x = g y) :
    xs.map g = ys.map g := by
  induction xs generalizing ys with
  | nil => rw [List.map_eq_nil_iff.mp h.symm]
  | cons x xs ih =>
    obtain ⟨y, ys, rfl, hx, hs⟩ := List.map_eq_cons_iff.mp h.symm
    rw [List.map_cons, List.map_cons, hg x List.mem_cons_self y List.mem_cons_self hx.symm,
      ih hs.symm fun x hx y hy => hg x (List.mem_cons_of_mem _ hx) y (List.mem_cons_of_mem _ hy)]

/-- Without a collision, a digest tells the text of each transaction. -/
theorem texts_eq_of_transactionsDigest_eq {ts us : List Transaction}
    (hf : CollisionFree (digestTexts ts ++ digestTexts us))
    (h : transactionsDigest ts = transactionsDigest us) :
    ts.map Transaction.text = us.map Transaction.text := by
  have hd := hf _ (List.mem_append_left _ List.mem_cons_self) _
    (List.mem_append_right _ List.mem_cons_self) h
  refine map_eq_of_map_eq (hashes_eq_of_digestText_eq hd) fun t ht u hu he => ?_
  exact hf _ (List.mem_append_left _ (List.mem_cons_of_mem _ (List.mem_map_of_mem ht))) _
    (List.mem_append_right _ (List.mem_cons_of_mem _ (List.mem_map_of_mem hu))) he

/-! ## Links -/

/-- The block keeps the rules that tie it to the one before it. -/
def Block.Follows (previous b : Block) : Prop :=
  Acceptance.hasReward b = true ∧ ∃ difficulty, Acceptance.Fits b previous difficulty

theorem Replay.isChain_of_run {r r' : Replay} {bs : List Block} (h : r.run bs = some r') :
    List.IsChain Block.Follows (r.last :: bs) := by
  induction bs generalizing r with
  | nil => exact List.isChain_singleton _
  | cons b bs ih =>
    obtain ⟨m, hm, hr⟩ := Option.bind_eq_some_iff.mp h
    obtain ⟨hp, rfl⟩ := Replay.step_eq_some_iff.mp hm
    exact List.isChain_cons_cons.mpr ⟨⟨hp.rewarded, _, hp.fits⟩, ih hr⟩

/-- The part of a block that later blocks depend on. -/
structure Seal where
  hash : String
  previousHash : String
  digest : String
  reward : Option Reward
  deriving DecidableEq

def Block.seal (b : Block) : Seal := ⟨b.hash, b.previousHash, b.digest, b.reward⟩

theorem Block.Follows.length_hash {previous b : Block} (h : previous.Follows b) :
    b.hash.toList.length = 64 := by
  obtain ⟨_, _, hf⟩ := h
  rw [← hf.hashed]
  exact length_sha256Hex _

theorem Block.Follows.length_digest {previous b : Block} (h : previous.Follows b) :
    b.digest.toList.length = 64 := by
  obtain ⟨_, _, hf⟩ := h
  rw [← hf.digested]
  exact length_sha256Hex _

/-- Two blocks with one hash have one seal, if the hashes before them are of one length. -/
theorem Block.Follows.seal_eq {p q b c : Block} (hb : p.Follows b) (hc : q.Follows c)
    (hw : p.hash.toList.length = q.hash.toList.length)
    (hf : b.header.hash = c.header.hash → b.header.text = c.header.text) (h : b.hash = c.hash) :
    p.hash = q.hash ∧ b.seal = c.seal := by
  have hdb := hb.length_digest
  have hdc := hc.length_digest
  obtain ⟨_, _, hb⟩ := hb
  obtain ⟨_, _, hc⟩ := hc
  have ht := hf ((hb.hashed.trans h).trans hc.hashed.symm)
  have hp : b.previousHash.toList.length = c.previousHash.toList.length := by
    rw [hb.linked, hc.linked, hw]
  obtain ⟨hr, _, hp, hd⟩ := Header.text_inj hp (hdb.trans hdc.symm) ht
  refine ⟨hb.linked.symm.trans (hp.trans hc.linked), ?_⟩
  have hrest := congrArg₂ (fun p d => Seal.mk c.hash p d c.reward) hp hd
  rw [Block.seal, Block.seal, h, show b.reward = c.reward from hr]
  exact hrest

/-- Back from the tip: each seal names the hash of the block before. -/
theorem seals_eq_of_tip {g g' : Block} {bs cs : List Block}
    (hb : List.IsChain Block.Follows (g :: bs)) (hc : List.IsChain Block.Follows (g' :: cs))
    (hl : bs.length = cs.length) (hw : g.hash.toList.length = g'.hash.toList.length)
    (hf : CollisionFree (bs.flatMap Block.hashedTexts ++ cs.flatMap Block.hashedTexts))
    (ht : (bs.getLast?.getD g).hash = (cs.getLast?.getD g').hash) :
    g.hash = g'.hash ∧ bs.map Block.seal = cs.map Block.seal := by
  induction bs generalizing g g' cs with
  | nil =>
    obtain rfl := List.eq_nil_of_length_eq_zero hl.symm
    exact ⟨ht, rfl⟩
  | cons b bs ih =>
    obtain ⟨c, cs, rfl⟩ := List.exists_cons_of_length_eq_add_one hl.symm
    obtain ⟨hgb, hb⟩ := List.isChain_cons_cons.mp hb
    obtain ⟨hgc, hc⟩ := List.isChain_cons_cons.mp hc
    rw [List.getLast?_cons, List.getLast?_cons] at ht
    have hs : bs.flatMap Block.hashedTexts ++ cs.flatMap Block.hashedTexts ⊆
        (b :: bs).flatMap Block.hashedTexts ++ (c :: cs).flatMap Block.hashedTexts :=
      List.append_subset.mpr ⟨fun t h => List.mem_append_left _ (List.mem_append_right _ h),
        fun t h => List.mem_append_right _ (List.mem_append_right _ h)⟩
    obtain ⟨he, hm⟩ := ih hb hc (Nat.succ.inj hl) (hgb.length_hash.trans hgc.length_hash.symm)
      (hf.mono hs) ht
    obtain ⟨hg, hseal⟩ := hgb.seal_eq hgc hw
      (hf _ (List.mem_append_left _ List.mem_cons_self) _
        (List.mem_append_right _ List.mem_cons_self)) he
    refine ⟨hg, ?_⟩
    rw [List.map_cons, List.map_cons, hseal, hm]

/-! ## Contents -/

/-- What a digest binds of a transaction: who pays whom how much, and when. -/
def Transaction.content (t : Transaction) : Transfer × Int64 := (t.transfer, t.timestamp)

def Block.contents (b : Block) : List (Transfer × Int64) := b.transactions.map Transaction.content

/-- Both parties of a transaction are spelled as addresses are. -/
def Transaction.Spelled (t : Transaction) : Prop :=
  Base58.Spelled t.sender ∧ Base58.Spelled t.receiver

instance (t : Transaction) : Decidable t.Spelled :=
  inferInstanceAs (Decidable (Base58.Spelled t.sender ∧ Base58.Spelled t.receiver))

theorem digested_of_isChain {g b : Block} {bs : List Block}
    (h : List.IsChain Block.Follows (g :: bs)) (hb : b ∈ bs) : b.computedDigest = b.digest := by
  induction bs generalizing g with
  | nil => cases hb
  | cons c bs ih =>
    obtain ⟨⟨_, _, hf⟩, hc⟩ := List.isChain_cons_cons.mp h
    rcases List.mem_cons.mp hb with rfl | hb
    · exact hf.digested
    · exact ih hc hb

/-- Without a collision, and between addresses, a digest tells what each transaction moves, and
when. -/
theorem contents_eq_of_transactionsDigest_eq {ts us : List Transaction}
    (hf : CollisionFree (digestTexts ts ++ digestTexts us)) (ht : ∀ t ∈ ts, t.Spelled)
    (hu : ∀ u ∈ us, u.Spelled) (h : transactionsDigest ts = transactionsDigest us) :
    ts.map Transaction.content = us.map Transaction.content := by
  refine map_eq_of_map_eq (texts_eq_of_transactionsDigest_eq hf h) fun t hmt u hmu he => ?_
  obtain ⟨hts, htr⟩ := ht t hmt
  obtain ⟨hus, hur⟩ := hu u hmu
  obtain ⟨ha, hm⟩ := Transaction.text_inj hts hus htr hur he
  exact Prod.ext ha hm

theorem map_content_history (chain : List Block) :
    (history chain).map Transaction.content = ((mined chain).map Block.contents).flatten := by
  rw [history, List.map_flatMap, List.flatMap_def]
  rfl

/-- Sums over part of a list that is picked by content depend on the contents alone. -/
theorem volume_filter_content (q : Transfer × Int64 → Bool) (ts : List Transaction) :
    volume (ts.filter fun t => q t.content) =
      (((ts.map Transaction.content).filter q).map (·.1.amount.toNat)).sum := by
  rw [List.filter_map, List.map_map]
  rfl

theorem paidTo_congr {ts us : List Transaction} (address : String)
    (h : ts.map Transaction.content = us.map Transaction.content) :
    paidTo address ts = paidTo address us := by
  have key := volume_filter_content fun c => c.1.receiver == address
  exact (key ts).trans (h ▸ (key us).symm)

theorem paidBy_congr {ts us : List Transaction} (address : String)
    (h : ts.map Transaction.content = us.map Transaction.content) :
    paidBy address ts = paidBy address us := by
  have key := volume_filter_content fun c => c.1.sender == address
  exact (key ts).trans (h ▸ (key us).symm)

theorem minted_congr {bs cs : List Block} (address : String)
    (h : bs.map (·.reward) = cs.map (·.reward)) : minted address bs = minted address cs := by
  have key (xs : List Block) : xs.filterMap (·.reward) = (xs.map (·.reward)).filterMap id := by
    rw [List.filterMap_map]
    rfl
  rw [minted, minted, key, h, key]

/-- Balances depend on nothing but rewards and contents. -/
theorem Balance.raw_congr {c d : List Block} (address : String) (pool : List Transaction)
    (hr : (mined c).map (·.reward) = (mined d).map (·.reward))
    (hc : (mined c).map Block.contents = (mined d).map Block.contents) :
    Balance.raw address c pool = Balance.raw address d pool := by
  have hh : (history c).map Transaction.content = (history d).map Transaction.content := by
    rw [map_content_history, map_content_history, hc]
  have hp : (history c ++ pool).map Transaction.content =
      (history d ++ pool).map Transaction.content := by
    rw [List.map_append, List.map_append, hh]
  rw [Balance.raw_eq, Balance.raw_eq, paidTo_congr address hh, minted_congr address hr,
    paidBy_congr address hp]

/-! ## The tip -/

/-- A chain that passes strict verification is a first block and what follows on it. -/
theorem isChain_of_verifyChain {chain : List Block} {initial : Nat}
    (h : verifyChain chain initial = true) :
    ∃ genesis, chain = genesis :: mined chain ∧ genesis.hash = Block.genesis.hash ∧
      List.IsChain Block.Follows (genesis :: mined chain) := by
  cases chain with
  | nil => cases h
  | cons genesis rest =>
    obtain ⟨_, hg, ⟨r, hr⟩, _⟩ := verifyChain_cons_iff.mp h
    exact ⟨genesis, rfl, hg, Replay.isChain_of_run hr⟩

/-- Equal seals have equal digests, and those settle what the blocks carry. -/
theorem contents_eq_of_seals {g g' : Block} {bs cs : List Block}
    (hb : List.IsChain Block.Follows (g :: bs)) (hc : List.IsChain Block.Follows (g' :: cs))
    (hf : CollisionFree (bs.flatMap Block.hashedTexts ++ cs.flatMap Block.hashedTexts))
    (hsb : ∀ b ∈ bs, ∀ t ∈ b.transactions, t.Spelled)
    (hsc : ∀ c ∈ cs, ∀ t ∈ c.transactions, t.Spelled)
    (hs : bs.map Block.seal = cs.map Block.seal) :
    bs.map Block.contents = cs.map Block.contents := by
  refine map_eq_of_map_eq hs fun b hmb c hmc he => ?_
  have hx : digestTexts b.transactions ++ digestTexts c.transactions ⊆
      bs.flatMap Block.hashedTexts ++ cs.flatMap Block.hashedTexts :=
    List.append_subset.mpr
      ⟨fun t h => List.mem_append_left _ (List.mem_flatMap.mpr ⟨b, hmb, List.mem_cons_of_mem _ h⟩),
      fun t h => List.mem_append_right _ (List.mem_flatMap.mpr ⟨c, hmc, List.mem_cons_of_mem _ h⟩)⟩
  have hd : b.computedDigest = c.computedDigest := by
    rw [digested_of_isChain hb hmb, digested_of_isChain hc hmc]
    exact congrArg Seal.digest he
  exact contents_eq_of_transactionsDigest_eq (hf.mono hx) (hsb b hmb) (hsc c hmc) hd

/-- Two chains of one length that pass strict verification and end in the same hash agree, from the
first mined block on, in hashes, links, digests and rewards, if no two of the texts hashed for them
collide. With addresses that are spelled as addresses are, they also carry the same transfers made
at the same times, and every balance on them is the same. -/
theorem tip_hash_commits {c d : List Block} {m n : Nat} (hc : verifyChain c m = true)
    (hd : verifyChain d n = true) (hl : c.length = d.length)
    (ht : c.getLast?.map (·.hash) = d.getLast?.map (·.hash))
    (hf : CollisionFree (hashedTexts c ++ hashedTexts d)) :
    (mined c).map Block.seal = (mined d).map Block.seal ∧
      ((∀ t ∈ history c ++ history d, t.Spelled) →
        (mined c).map Block.contents = (mined d).map Block.contents ∧
          ∀ address pool, Balance.raw address c pool = Balance.raw address d pool) := by
  obtain ⟨g, hcg, hg, hbc⟩ := isChain_of_verifyChain hc
  obtain ⟨g', hdg, hg', hbd⟩ := isChain_of_verifyChain hd
  have hlm : (mined c).length = (mined d).length := by
    rw [hcg, hdg, List.length_cons, List.length_cons] at hl
    exact Nat.succ.inj hl
  have htm : ((mined c).getLast?.getD g).hash = ((mined d).getLast?.getD g').hash := by
    rw [hcg, hdg, List.getLast?_cons, List.getLast?_cons] at ht
    exact Option.some.inj ht
  obtain ⟨_, hs⟩ := seals_eq_of_tip hbc hbd hlm (by rw [hg, hg']) hf htm
  refine ⟨hs, fun hsp => ?_⟩
  have hm : (mined c).map Block.contents = (mined d).map Block.contents :=
    contents_eq_of_seals hbc hbd hf
      (fun b hb t ht => hsp t (List.mem_append_left _ (List.mem_flatMap.mpr ⟨b, hb, ht⟩)))
      (fun b hb t ht => hsp t (List.mem_append_right _ (List.mem_flatMap.mpr ⟨b, hb, ht⟩))) hs
  have hr : (mined c).map (·.reward) = (mined d).map (·.reward) :=
    map_eq_of_map_eq hs fun _ _ _ _ he => congrArg Seal.reward he
  exact ⟨hm, fun address pool => Balance.raw_congr address pool hr hm⟩

namespace Ledger.KeySwap

theorem hashedTexts_settled (key : Bytes) : hashedTexts (settled key) =
    hashedTexts (settled payment.publicKey) := rfl

theorem collisionFree_settled : CollisionFree (hashedTexts (settled payment.publicKey)) := by
  have hf := funding_acceptable.fits
  have hs := (settling_acceptable payment.publicKey).fits
  have hp : sha256Hex payment.text =
      "2bca12d7d7f60cd3842a2b9ee86d1553c347433965d7b63f546b7c307411ca9f" := by
    rw [sha256Hex_eq]
    decide +kernel
  -- The other hashes are stated in the blocks.
  have hm : (hashedTexts (settled payment.publicKey)).map sha256Hex =
      [funding.hash, funding.digest, (settling payment.publicKey).hash,
        (settling payment.publicKey).digest,
        "2bca12d7d7f60cd3842a2b9ee86d1553c347433965d7b63f546b7c307411ca9f"] := by
    rw [← hf.hashed, ← hf.digested, ← hs.hashed, ← hs.digested, ← hp]
    rfl
  refine collisionFree_of_nodup ?_
  rw [hm]
  decide

theorem spelled_payment : payment.Spelled where
  left := by decide
  right := by decide

end Ledger.KeySwap

open Ledger.KeySwap in
/-- The same payment under each of the two keys that verify it: the chains differ, their tips do
not. -/
theorem tip_hash_commits_settled :
    settled payment.publicKey ≠ settled secondKey ∧
      verifyChain (settled payment.publicKey) 2 = true ∧
      verifyChain (settled secondKey) 2 = true ∧
      CollisionFree (hashedTexts (settled payment.publicKey) ++ hashedTexts (settled secondKey)) ∧
      (∀ t ∈ history (settled payment.publicKey) ++ history (settled secondKey), t.Spelled) ∧
      (mined (settled payment.publicKey)).map Block.seal =
        (mined (settled secondKey)).map Block.seal ∧
      (mined (settled payment.publicKey)).map Block.contents =
        (mined (settled secondKey)).map Block.contents ∧
      ∀ address pool, Balance.raw address (settled payment.publicKey) pool =
        Balance.raw address (settled secondKey) pool := by
  have hv := verifyChain_settled payment_admissible.signed
  have hw := verifyChain_settled secondKey_verifies
  have hf : CollisionFree
      (hashedTexts (settled payment.publicKey) ++ hashedTexts (settled secondKey)) := by
    rw [hashedTexts_settled secondKey]
    exact collisionFree_settled.mono
      (List.append_subset.mpr ⟨List.Subset.refl _, List.Subset.refl _⟩)
  have hs : ∀ t ∈ history (settled payment.publicKey) ++ history (settled secondKey),
      t.Spelled := by
    intro t ht
    -- Both chains carry the payment, and keys do not matter here.
    rcases List.mem_append.mp ht with ht | ht
    · rw [List.mem_singleton.mp ht]
      exact spelled_payment
    · rw [List.mem_singleton.mp ht]
      exact spelled_payment
  obtain ⟨hseal, hrest⟩ := tip_hash_commits hv hw rfl rfl hf
  exact ⟨by decide, hv, hw, hf, hs, hseal, hrest hs⟩

end WorkLedger
