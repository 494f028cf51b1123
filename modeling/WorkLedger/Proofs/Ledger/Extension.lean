import WorkLedger.Proofs.Mining.Search
import WorkLedger.Proofs.Rules.Continuation
import WorkLedger.Proofs.Simulation.Resume

/-! Going on from a loaded chain. A strict load verifies the chain from the difficulty that the
ledger was made with, and from then on the live difficulty is the one that is counted from the usual
start. The two move alike with each block. So what is mined shows enough work to be verified again
if the ledger was made with the usual difficulty or a lower one, and else only if the blocks happen
to. The first block of the loaded chain carries no transactions, as that of a new ledger does not:
admission would not know of them. -/

namespace WorkLedger.Ledger

open Transaction (identity)

variable {l : Ledger} {b : Block} {now : Int64} {calls : List Call}

/-! ## The first block -/

/-- The block that all others are on top of. -/
def first (l : Ledger) : Block := l.chain.head l.chain_ne_nil

theorem chain_eq (l : Ledger) : l.chain = l.first :: mined l.chain := by
  rw [mined, List.drop_one]
  exact (List.cons_head_tail l.chain_ne_nil).symm

theorem first_extend (l : Ledger) (b : Block) : (l.extend b).first = l.first :=
  List.head_append_of_ne_nil l.chain_ne_nil

theorem flatMap_transactions (l : Ledger) :
    l.chain.flatMap (·.transactions) = l.first.transactions ++ history l.chain := by
  have h : l.chain.flatMap (·.transactions) =
      (l.first :: mined l.chain).flatMap (·.transactions) := congrArg _ l.chain_eq
  rw [h, List.flatMap_cons, history]

/-- All that is held on top of the first block is held once. -/
theorem Unrepeated.nodup_chain (h : l.Unrepeated) (hf : l.first.transactions = []) :
    ((l.chain.flatMap (·.transactions)).map identity).Nodup := by
  rw [flatMap_transactions, hf, List.nil_append]
  exact h.sublist ((List.sublist_append_left _ _).map _)

/-! ## What every run keeps -/

/-- What a ledger keeps up on whatever chain it was put: nobody owes, nothing is there twice, and
blocks stand at their heights. -/
structure Tidy (l : Ledger) : Prop where
  solvent : l.Solvent
  unrepeated : l.Unrepeated
  heights : l.size < UInt32.size →
    l.chain.map (·.height.toNat) = List.range l.chain.length

theorem tidy_withDifficulty (difficulty : Nat) : (withDifficulty difficulty).Tidy where
  solvent := solvent_withDifficulty difficulty
  unrepeated := (accounted_withDifficulty difficulty).unrepeated
  heights := fun _ => rfl

theorem Tidy.enqueue (h : l.Tidy) {t : Transaction}
    (ha : Admission.Admissible t l.chain l.pool) : (l.enqueue t).Tidy where
  solvent := h.solvent.enqueue ha
  unrepeated := h.unrepeated.enqueue ha
  heights := h.heights

theorem Tidy.extend (h : l.Tidy) (ha : l.Acceptable b now) : (l.extend b).Tidy where
  solvent := h.solvent.extend h.unrepeated.pool_nodup ha.backed
  unrepeated := h.unrepeated.extend ha.backed
  heights := fun hz => heights_extend (h.heights (size_lt_of_extend hz)) (ha.toNat_height hz)

theorem Tidy.run (h : l.Tidy) (calls : List Call) : (l.run calls).Tidy :=
  run_keeps (fun _ _ h ha => h.enqueue ha) (fun _ _ _ h ha => h.extend ha) h calls

/-- The rest of the ledger has no part in it. -/
theorem Tidy.congr (h : l.Tidy) {l' : Ledger} (hc : l'.chain = l.chain) (hp : l'.pool = l.pool) :
    l'.Tidy := by
  obtain ⟨hs, hn, hh⟩ := h
  unfold Solvent exact at hs
  unfold Unrepeated holdings at hn
  unfold size at hh
  rw [← hc, ← hp] at hs hn
  rw [← hc] at hh
  exact ⟨hs, hn, hh⟩

theorem Tidy.sound (h : l.Tidy) : l.Sound := by
  refine sound_iff_carries.mpr ⟨fun t ht => ?_, fun a => .inl ?_⟩
  · have hn := h.unrepeated
    rw [Unrepeated, holdings, List.map_append, List.nodup_append] at hn
    rw [← Bool.not_eq_true, Transaction.occursIn_iff]
    exact fun hm => hn.2.2 _ hm _ (List.mem_map_of_mem ht) rfl
  · have he := h.solvent a
    rw [exact, Balance.exact_eq_sub_paidBy] at he
    omega

/-- A verified chain on which nothing waits. -/
theorem tidy_of_verifyChain {initial : Nat} (hv : verifyChain l.chain initial = true)
    (hp : l.pool = []) : l.Tidy where
  solvent := by
    intro address
    rw [exact, hp]
    exact Balance.exact_nonneg_of_verifyChain hv address
  unrepeated := by
    have hn := distinct_of_verifyChain hv
    rw [flatMap_transactions] at hn
    rw [Unrepeated, holdings, hp, List.append_nil]
    exact hn.sublist ((List.sublist_append_right _ _).map _)
  heights := fun _ => heights_of_verifyChain hv

/-! ## The work that is asked for -/

/-- The difficulty that verification has come to at the end of the chain. -/
def demand (l : Ledger) : Difficulty := l.initial.recount (Difficulty.timesOf l.chain)

/-- The candidate that is accepted shows the work that verification asks for in its place. -/
def MeetsDemand (l : Ledger) : Call → Prop
  | .submit _ => True
  | .append candidate now =>
    l.takes (.append candidate now) = true → meetsDifficulty candidate.hash l.demand.zeros = true

/-- What a loaded ledger keeps up besides: nothing in the first block, signatures in the pool, and
the difficulty that the times lead to. -/
structure Orderly (l : Ledger) : Prop where
  tidy : l.Tidy
  bare : l.first.transactions = []
  signed : l.PoolSigned
  counted : l.size < UInt32.size → l.difficulty = .ofChain l.chain

theorem Orderly.enqueue (h : l.Orderly) {t : Transaction}
    (ha : Admission.Admissible t l.chain l.pool) : (l.enqueue t).Orderly where
  tidy := h.tidy.enqueue ha
  bare := h.bare
  signed := h.signed.enqueue ha.signed
  counted := h.counted

theorem Orderly.extend (h : l.Orderly) (ha : l.Acceptable b now) : (l.extend b).Orderly where
  tidy := h.tidy.extend ha
  bare := by
    rw [first_extend]
    exact h.bare
  signed := h.signed.extend b
  counted := by
    intro hz
    change l.difficulty.adjust (l.chain ++ [b]) = .ofChain (l.chain ++ [b])
    rw [Difficulty.ofChain_snoc (ha.toNat_height hz), h.counted (size_lt_of_extend hz)]

/-! ## Verification, block by block -/

theorem worked_of_verifyChain (hv : verifyChain (l.extend b).chain l.initial.zeros = true) :
    meetsDifficulty b.hash l.demand.zeros = true := by
  have hw := ((verifyChain_snoc_iff l.chain_ne_nil).mp hv).2.fits.worked
  rw [Difficulty.ofNat_zeros] at hw
  exact hw

/-- A block that was accepted on a verified chain leaves it verified if it shows enough work. -/
theorem Orderly.verifyChain_extend (h : l.Orderly) (ha : l.Acceptable b now)
    (hs : Acceptance.allSigned b = true) (hv : verifyChain l.chain l.initial.zeros = true)
    (hz : (l.extend b).size < UInt32.size) (hw : meetsDifficulty b.hash l.demand.zeros = true) :
    verifyChain (l.extend b).chain l.initial.zeros = true := by
  refine (verifyChain_snoc_iff l.chain_ne_nil).mpr ⟨hv, ?_⟩
  refine
    { next := ha.toNat_height hz
      fits := ⟨ha.fits.linked, ?_, ha.fits.digested, ha.fits.hashed⟩
      rewarded := ha.rewarded
      signed := hs
      covered := paidBy_le_exact h.tidy.solvent h.tidy.unrepeated.pool_nodup ha.backed
      distinct := (h.extend ha).tidy.unrepeated.nodup_chain (h.extend ha).bare }
  rw [Difficulty.ofNat_zeros, ← demand]
  exact hw

/-- The chain was verified before a call if it is after it. -/
theorem verifyChain_of_perform {c : Call}
    (hv : verifyChain (l.perform c).chain (l.perform c).initial.zeros = true) :
    verifyChain l.chain l.initial.zeros = true := by
  rcases l.perform_cases c with ⟨_, hp⟩ | ⟨t, _, _, _, hp⟩ | ⟨b, _, _, _, _, hp⟩
  · rwa [hp] at hv
  · rwa [hp] at hv
  · rw [hp] at hv
    exact ((verifyChain_snoc_iff l.chain_ne_nil).mp hv).1

theorem meetsDemand_run_of_verifyChain
    (hv : verifyChain (l.run calls).chain (l.run calls).initial.zeros = true) :
    l.Throughout MeetsDemand calls := by
  have h := throughout_of_run (P := fun l => verifyChain l.chain l.initial.zeros = true)
    (fun _ _ => verifyChain_of_perform) hv
  refine h.mono fun l c hv => ?_
  cases c with
  | submit t => trivial
  | append b now =>
    intro ht
    rw [(perform_append (takes_append_iff.mp ht)).2] at hv
    exact worked_of_verifyChain hv

/-- On a verified chain, the calls that meet the demand lead to a verified chain again. -/
theorem Orderly.verified_run (h : l.Orderly) (hv : verifyChain l.chain l.initial.zeros = true)
    (hk : l.Throughout KeysVerify calls) (hd : l.Throughout MeetsDemand calls)
    (hz : (l.run calls).size < UInt32.size) :
    verifyChain (l.run calls).chain (l.run calls).initial.zeros = true := by
  have hc : l.Throughout (fun l c => l.KeysVerify c ∧ l.MeetsDemand c) calls :=
    throughout_and_iff.mpr ⟨hk, hd⟩
  -- What holds at the end bounds every ledger on the way.
  refine (run_invariant (P := fun l _ => l.Orderly ∧ (l.size < UInt32.size →
    verifyChain l.chain l.initial.zeros = true)) ?_ ?_ [] ⟨h, fun _ => hv⟩ hc).2 hz
  · rintro l _ t ⟨ho, hv⟩ ha
    exact ⟨ho.enqueue ha, hv⟩
  · rintro l _ b now ⟨ho, hv⟩ ⟨hk, hd⟩ ht ha
    refine ⟨ho.extend ha, fun hz => ?_⟩
    have hs : Acceptance.allSigned b = true := (allSigned_iff_keysVerify ht ha.backed).mpr hk
    exact ho.verifyChain_extend ha hs (hv (size_lt_of_extend hz)) hz (hd ht)

/-! ## From the usual difficulty down -/

theorem size_lt_of_perform {n : Nat} {c : Call} (h : (l.perform c).size < n) : l.size < n := by
  rcases l.perform_cases c with ⟨_, hp⟩ | ⟨t, _, _, _, hp⟩ | ⟨b, _, _, _, _, hp⟩
  · rwa [hp] at h
  · rwa [hp] at h
  · rw [hp] at h
    exact size_lt_of_extend h

/-- What the live difficulty asks for is enough, as long as it is counted from no lower a start. -/
theorem Orderly.meetsDemand_run (h : l.Orderly) (hi : l.initial.zeros ≤ Difficulty.initial.zeros)
    (hz : (l.run calls).size < UInt32.size) : l.Throughout MeetsDemand calls := by
  have hc : l.Throughout (fun l c => (l.perform c).size < UInt32.size) calls :=
    throughout_of_run (P := fun l => l.size < UInt32.size) (fun _ _ => size_lt_of_perform) hz
  refine hc.imp (P := fun l => l.Orderly ∧ l.initial.zeros ≤ Difficulty.initial.zeros) ?_ ?_ ?_
    ⟨h, hi⟩
  · exact fun l t ⟨ho, hi⟩ ha => ⟨ho.enqueue ha, hi⟩
  · exact fun l b now ⟨ho, hi⟩ ha => ⟨ho.extend ha, hi⟩
  · rintro l c ⟨ho, hi⟩ hz
    cases c with
    | submit t => trivial
    | append b now =>
      intro ht
      have hw := (takes_append_iff.mp ht).fits.worked
      have hle : l.demand.zeros ≤ l.difficulty.zeros := by
        rw [ho.counted (size_lt_of_perform hz)]
        exact Difficulty.recount_mono hi _
      exact meetsDifficulty_of_le hle hw

/-! ## Loaded, then extended -/

theorem initial_load (l : Ledger) (blocks : List Block) (strict : Bool) :
    (l.load blocks strict).initial = l.initial := by
  unfold load
  split
  · rfl
  · rfl

theorem orderly_load {difficulty : Nat} {blocks : List Block}
    (hl : (withDifficulty difficulty).accepts blocks true = true)
    (hbare : ∀ b ∈ blocks.head?, b.transactions = []) :
    ((withDifficulty difficulty).load blocks true).Orderly ∧
      verifyChain ((withDifficulty difficulty).load blocks true).chain
        ((withDifficulty difficulty).load blocks true).initial.zeros = true := by
  have hv : verifyChain blocks (Difficulty.ofNat difficulty).zeros = true := by
    rw [accepts_strict] at hl
    exact hl
  rw [load, dif_pos hl]
  exact ⟨⟨tidy_of_verifyChain hv rfl, hbare _ (List.head?_eq_some_head _),
    fun _ ht => absurd ht List.not_mem_nil, fun _ => rfl⟩, hv⟩

/-- Copies need no look at their keys, wherever a run starts from. -/
theorem Orderly.keysVerify_run (h : l.Orderly) (hc : l.Throughout CopiesPending calls) :
    l.Throughout KeysVerify calls :=
  hc.imp (fun _ _ h ha => h.enqueue ha) (fun _ _ _ h ha => h.extend ha)
    (fun _ _ h hk => hk.keysVerify h.signed) h

/-- After a strict load of a chain whose first block carries nothing, if it was accepted, and any
run in which accepted blocks carry what is pending as it is, the chain passes strict verification
from the difficulty that the ledger was made with if and only if its heights have not run out and
each block that was accepted shows the work that this verification asks for in its place. A ledger
that was made with no more than the usual difficulty always asks for enough work. -/
theorem verifyChain_load_run_iff (difficulty : Nat) {blocks : List Block}
    (hl : (withDifficulty difficulty).accepts blocks true = true)
    (hbare : ∀ b ∈ blocks.head?, b.transactions = []) {calls : List Call}
    (hc : ((withDifficulty difficulty).load blocks true).Throughout CopiesPending calls) :
    let start := (withDifficulty difficulty).load blocks true
    let l := start.run calls
    (verifyChain l.chain l.initial.zeros = true ↔
      l.size < UInt32.size ∧ start.Throughout MeetsDemand calls) ∧
    (difficulty ≤ Difficulty.initial.zeros → l.size < UInt32.size →
      start.Throughout MeetsDemand calls) := by
  intro start l
  obtain ⟨ho, hv⟩ := orderly_load hl hbare
  refine ⟨⟨fun h => ⟨?_, ?_⟩, fun ⟨hz, hd⟩ => ?_⟩, fun hle hz => ?_⟩
  · rw [← length_mined]
    exact length_mined_of_verifyChain h
  · exact meetsDemand_run_of_verifyChain h
  · exact ho.verified_run hv (ho.keysVerify_run hc) hd hz
  · refine ho.meetsDemand_run ?_ hz
    have hi : start.initial = .ofNat difficulty := initial_load _ blocks true
    rw [hi]
    change max 2 (min difficulty 6) ≤ 5
    change difficulty ≤ 5 at hle
    omega

/-! ## A first block on its own -/

/-- A candidate is held against the length of the chain, the hash that it ends with, the difficulty
and the pool. -/
theorem Acceptable.transfer {l' : Ledger} (h : l.Acceptable b now)
    (hlength : l'.chain.length = l.chain.length) (hlast : l'.last.hash = l.last.hash)
    (hd : l'.difficulty = l.difficulty) (hp : l'.pool = l.pool) : l'.Acceptable b now where
  next := by
    rw [hlength]
    exact h.next
  past := h.past
  fits :=
    { linked := by
        rw [hlast]
        exact h.fits.linked
      worked := by
        rw [hd]
        exact h.fits.worked
      digested := h.fits.digested
      hashed := h.fits.hashed }
  rewarded := h.rewarded
  backed := by
    rw [hp]
    exact h.backed

namespace Reloaded

open Simulator.Paused (funding settling pending)
open KeySwap (payment)

/-- Like the first block, with transactions in it. -/
def ground (carried : List Transaction) : Block := { Block.genesis with transactions := carried }

/-- The ledger that comes of loading such a block. -/
def loaded (difficulty : Nat) (carried : List Transaction) : Ledger where
  chain := [ground carried]
  pool := []
  difficulty := .initial
  initial := .ofNat difficulty
  chain_ne_nil := List.cons_ne_nil _ _

/-- The payment is funded, let in and settled. -/
def purchase : List Call :=
  [.append funding 1600000000000, .submit payment, .append settling 1600000000000]

variable {difficulty : Nat} {carried : List Transaction}

theorem load_ground (h : (withDifficulty difficulty).accepts [ground carried] true = true) :
    (withDifficulty difficulty).load [ground carried] true = loaded difficulty carried := by
  rw [load, dif_pos h]
  simp only [Difficulty.ofChain_singleton]
  rfl

theorem funding_acceptable : (loaded difficulty carried).Acceptable funding 1600000000000 :=
  Simulator.Paused.funding_acceptable.transfer rfl rfl rfl rfl

theorem run_funding : (loaded difficulty carried).run [.append funding 1600000000000] =
    (loaded difficulty carried).extend funding := by
  rw [run, List.foldl_cons, (perform_append funding_acceptable).2, List.foldl_nil]

theorem payment_admissible : Admission.Admissible payment
    ((loaded difficulty carried).extend funding).chain
    ((loaded difficulty carried).extend funding).pool :=
  have h := Simulator.Paused.payment_admissible
  ⟨h.unknown, h.timely, h.positive, h.bounded, h.covered, h.signed⟩

theorem settling_acceptable :
    (((loaded difficulty carried).extend funding).enqueue payment).Acceptable settling
      1600000000000 :=
  Simulator.Paused.settling_acceptable.transfer rfl rfl rfl rfl

theorem run_purchase : (loaded difficulty carried).run purchase =
    (((loaded difficulty carried).extend funding).enqueue payment).extend settling := by
  rw [purchase, run, List.foldl_cons, (perform_append funding_acceptable).2, List.foldl_cons,
    (perform_submit payment_admissible).2, List.foldl_cons, (perform_append settling_acceptable).2,
    List.foldl_nil]

theorem copiesPending_purchase : (loaded difficulty carried).Throughout CopiesPending purchase := by
  refine ⟨fun _ t ht => absurd ht List.not_mem_nil, fun _ t ht => absurd ht List.not_mem_nil,
    fun _ t ht => ?_, trivial⟩
  rw [(perform_append funding_acceptable).2, (perform_submit payment_admissible).2]
  exact ht

end Reloaded

open Reloaded in
/-- Made with a lower difficulty, the ledger asks for more work than verification does. -/
theorem verifyChain_load_run_lower :
    let start := (withDifficulty 4).load [Block.genesis] true
    let l := start.run purchase
    (withDifficulty 4).accepts [Block.genesis] true = true ∧ Block.genesis.transactions = [] ∧
      start.Throughout CopiesPending purchase ∧ 4 ≤ Difficulty.initial.zeros ∧ l.size = 2 ∧
      l.difficulty.zeros = 5 ∧ l.demand.zeros = 4 ∧
      verifyChain l.chain l.initial.zeros = true := by
  have hl : (withDifficulty 4).accepts [Block.genesis] true = true := rfl
  have hs : (withDifficulty 4).load [Block.genesis] true = loaded 4 [] := load_ground hl
  have hc : ((withDifficulty 4).load [Block.genesis] true).Throughout CopiesPending purchase := by
    rw [hs]
    exact copiesPending_purchase
  have hbare : ∀ b ∈ [Block.genesis].head?, b.transactions = [] := fun b hb => by
    cases hb
    rfl
  obtain ⟨hiff, hlow⟩ := verifyChain_load_run_iff 4 hl hbare hc
  rw [hs] at hc hiff hlow ⊢
  have hle : 4 ≤ Difficulty.initial.zeros := by decide
  have hz : ((loaded 4 []).run purchase).size = 2 := by
    rw [run_purchase]
    rfl
  have hlt : ((loaded 4 []).run purchase).size < UInt32.size := by
    rw [hz]
    decide
  have hd : ((loaded 4 []).run purchase).difficulty.zeros = 5 ∧
      ((loaded 4 []).run purchase).demand.zeros = 4 := by
    rw [run_purchase]
    decide
  exact ⟨hl, rfl, hc, hle, hz, hd.1, hd.2, hiff.mpr ⟨hlt, hlow hle hlt⟩⟩

open Reloaded in
/-- Made with a higher difficulty, the ledger takes a block from a miner who works on what it has,
and verification finds the work too little. Where the first block carries a payment, the ledger
lets it in once more, and verification finds it there twice. -/
theorem verifyChain_lost :
    let high := (withDifficulty 6).load [Block.genesis] true
    let paid := (withDifficulty 5).load [ground [KeySwap.payment]] true
    let funding := Simulator.Paused.funding
    ((withDifficulty 6).accepts [Block.genesis] true = true ∧
      (high.snapshot.candidate funding.minerName KeySwap.payment.sender).attempt?
        funding.timestamp funding.nonce = some funding ∧
      high.takes (.append funding 1600000000000) = true ∧
      verifyChain (high.run [.append funding 1600000000000]).chain high.initial.zeros = false) ∧
    (withDifficulty 5).accepts [ground [KeySwap.payment]] true = true ∧
      paid.Throughout CopiesPending purchase ∧ (paid.run purchase).size = 2 ∧
      verifyChain (paid.run purchase).chain paid.initial.zeros = false := by
  have hh : (withDifficulty 6).accepts [Block.genesis] true = true := rfl
  have hp : (withDifficulty 5).accepts [ground [KeySwap.payment]] true = true := rfl
  intro high paid funding
  have hhigh : high = loaded 6 [] := load_ground hh
  have hpaid : paid = loaded 5 [KeySwap.payment] := load_ground hp
  rw [hhigh, hpaid, run_funding, run_purchase]
  have ha : (loaded 6 []).Acceptable funding 1600000000000 := funding_acceptable
  refine ⟨⟨hh, Candidate.attempt?_of_fits ha.fits rfl rfl, (perform_append ha).1, ?_⟩, hp,
    copiesPending_purchase, rfl, ?_⟩
  · rw [← Bool.not_eq_true]
    intro hv
    have hw : meetsDifficulty funding.hash 6 = true := worked_of_verifyChain hv
    revert hw
    decide
  · rw [← Bool.not_eq_true]
    intro hv
    have hn : [KeySwap.payment.identity, KeySwap.payment.identity].Nodup :=
      distinct_of_verifyChain hv
    exact (List.nodup_cons.mp hn).1 List.mem_cons_self

end WorkLedger.Ledger
