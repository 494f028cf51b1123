import Mathlib.Data.List.Chain
import WorkLedger.Proofs.Commitment.Evaluation
import WorkLedger.Proofs.Rules.Thresholds
import WorkLedger.Proofs.Simulation.Target

/-! Times on the chain. No rule compares a block with the one before it; a block only has to be
older than the clock when it is handed in. But a miner looks at the ledger first and reads the clock
for its own block after that, so the last block that it saw is older than this reading, and a block
that was overtaken stands at a height that is taken. As long as the clock never goes back, each
block is therefore later than the one before, and every window of the difficulty takes some time. -/

namespace WorkLedger

/-! ## Windows of rising times -/

namespace Difficulty

variable {times : List Int} {height place count : Nat}

/-- Whole milliseconds that rise are at least one apart. -/
theorem timeAt_add_le (h : times.IsChain (· < ·)) (hlen : place + count < times.length) :
    timeAt times place + count ≤ timeAt times (place + count) := by
  induction count with
  | zero => exact Int.le_of_eq (Int.add_zero _)
  | succ count ih =>
    rw [← Nat.add_assoc] at hlen ⊢
    have hnext : timeAt times (place + count) < timeAt times (place + count + 1) := by
      have hplace : place + count < times.length := Nat.lt_of_succ_lt hlen
      rw [timeAt, timeAt, List.getD_eq_getElem times 0 hplace, List.getD_eq_getElem times 0 hlen]
      exact List.isChain_iff_getElem.mp h (place + count) hlen
    have hbefore := ih (Nat.lt_of_succ_lt hlen)
    omega

theorem le_span (h : times.IsChain (· < ·)) (hlen : height < times.length)
    (hlt : windowStart height < height) :
    ((height - windowStart height : Nat) : Int) ≤ span times height := by
  have hend : windowStart height + (height - windowStart height) = height :=
    Nat.add_sub_of_le (Nat.le_of_lt hlt)
  have hle : timeAt times (windowStart height) + (height - windowStart height : Nat) ≤ _ :=
    timeAt_add_le h (by rw [hend]; exact hlen)
  rw [hend] at hle
  rw [span]
  omega

/-- Words that are not below zero differ by a word. -/
theorem fitsWord_timeAt_sub (h : ∀ time ∈ times, 0 ≤ time ∧ time ≤ Int64.maxValue.toInt)
    (later earlier : Nat) : FitsWord (timeAt times later - timeAt times earlier) := by
  have hmax : Int64.maxValue.toInt = 9223372036854775807 := rfl
  have hmin : Int64.minValue.toInt = -9223372036854775808 := rfl
  have hat (place : Nat) : 0 ≤ timeAt times place ∧ timeAt times place ≤ Int64.maxValue.toInt := by
    rcases Nat.lt_or_ge place times.length with hlt | hge
    · rw [timeAt, List.getD_eq_getElem _ _ hlt]
      exact h _ (List.getElem_mem hlt)
    · rw [timeAt, List.getD_eq_default _ _ hge, hmax]
      decide
  have hl := hat later
  have he := hat earlier
  rw [FitsWord, hmin]
  omega

/-- Of times that rise, every average is positive. -/
theorem averageGap_pos (h : times.IsChain (· < ·))
    (hwords : ∀ time ∈ times, 0 ≤ time ∧ time ≤ Int64.maxValue.toInt)
    (hlen : height < times.length) (ha : Adjusts height) :
    ∃ average, averageGap times height = some average ∧ 0 < average := by
  have hlt := windowStart_lt ha
  have hle := le_span h hlen hlt
  have hk : (0 : Int) < (height - windowStart height : Nat) :=
    Int.natCast_pos.mpr (Nat.sub_pos_of_lt hlt)
  have hfits : FitsWord (span times height) := fitsWord_timeAt_sub hwords _ _
  refine ⟨_, averageGap_eq hlen hlt, ?_⟩
  rw [wrap_of_fits hfits, Int.tdiv_eq_ediv_of_nonneg (Int.le_trans (Int.le_of_lt hk) hle)]
  exact (Int.le_ediv_iff_mul_le hk).mpr (by rwa [Int.zero_add, Int.one_mul])

/-- A window of times that are not before the first block fits into machine words. -/
theorem inWords_of_nonneg (h : ∀ time ∈ times, 0 ≤ time ∧ time ≤ Int64.maxValue.toInt)
    (start count : Nat) : InWords times start count := fun place _ =>
  ⟨fitsWord_timeAt_sub h place (place - 1), fitsWord_timeAt_sub h place start⟩

end Difficulty

open Difficulty (timesOf)

/-! ## The chain and the clock -/

namespace Ledger

/-- The last block is numbered by its place, times rise from block to block and begin at zero or
later, and the clock has passed them all. -/
structure Rising (clock : Int64) (l : Ledger) : Prop where
  numbered : l.last.height.toNat = l.size
  rises : (timesOf l.chain).IsChain (· < ·)
  nonneg : ∀ time ∈ timesOf l.chain, 0 ≤ time
  passed : l.last.timestamp < clock

variable {l l' : Ledger} {b : Block} {clock clock' now : Int64}

theorem last_mem (l : Ledger) : l.last ∈ l.chain := List.getLast_mem l.chain_ne_nil

theorem rising_withDifficulty (difficulty : Nat) : (withDifficulty difficulty).Rising 1 where
  numbered := rfl
  rises := List.isChain_singleton _
  nonneg := by simp [withDifficulty, timesOf, Block.genesis]
  passed := (by decide : Block.genesis.timestamp < 1)

namespace Rising

theorem size_lt (h : l.Rising clock) : l.size < UInt32.size :=
  h.numbered ▸ l.last.height.toNat_lt_size

/-- Below some target there is room for one more height. -/
theorem toNat_next (h : l.Rising clock) {target : UInt32} (hlow : l.last.height < target) :
    (l.last.height + 1).toNat = l.size + 1 := by
  have hn := h.numbered
  have ht : target.toNat < 2 ^ 32 := target.toNat_lt
  rw [UInt32.lt_iff_toNat_lt] at hlow
  rw [UInt32.toNat_add, UInt32.toNat_one]
  omega

theorem later (h : l.Rising clock) (hc : l'.chain = l.chain) (hle : clock ≤ clock') :
    l'.Rising clock' where
  numbered := by rw [last_congr hc, size_congr hc, h.numbered]
  rises := by rw [hc]; exact h.rises
  nonneg := by rw [hc]; exact h.nonneg
  passed := by
    rw [last_congr hc]
    exact Int64.lt_of_lt_of_le h.passed hle

theorem extend (h : l.Rising clock) (hb : l.Acceptable b now) (hz : b.height ≠ 0)
    (hlater : l.last.timestamp < b.timestamp) : (l.extend b).Rising now := by
  have htimes : timesOf (l.extend b).chain = timesOf l.chain ++ [b.timestamp.toInt] :=
    List.map_append
  have hlast : (timesOf l.chain).getLast? = some l.last.timestamp.toInt := by
    rw [timesOf, List.getLast?_map, List.getLast?_eq_some_getLast l.chain_ne_nil]
    rfl
  have hlt : l.last.timestamp.toInt < b.timestamp.toInt := Int64.lt_iff_toInt_lt.mp hlater
  refine ⟨?_, ?_, ?_, ?_⟩
  · rw [last_extend, size_extend]
    exact hb.toNat_height_of_ne_zero h.size_lt hz
  · rw [htimes, List.isChain_append]
    refine ⟨h.rises, List.isChain_singleton _, fun x hx y hy => ?_⟩
    rw [hlast] at hx
    cases hx
    cases hy
    exact hlt
  · rw [htimes]
    refine List.forall_mem_append.mpr ⟨h.nonneg, List.forall_mem_singleton.mpr ?_⟩
    exact Int.le_trans (h.nonneg _ (List.mem_map_of_mem l.last_mem)) (Int.le_of_lt hlt)
  · rw [last_extend]
    exact hb.past

end Rising

end Ledger

/-! ## Blocks in the making -/

namespace Miner

/-- The time that the block in the making carries. -/
def Stage.stamp? : Stage → Option Int64
  | .searching _ timestamp => some timestamp
  | .submitting block => some block.timestamp
  | _ => none

/-- A block in the making stands at the next height or below. At the next height, its time is after
that of the last block. -/
def Stage.InTime (l : Ledger) (stage : Stage) : Prop :=
  ∀ height, stage.aim? = some height → height ≠ 0 ∧ height.toNat ≤ l.size + 1 ∧
    (height.toNat = l.size + 1 → ∀ stamp, stage.stamp? = some stamp → l.last.timestamp < stamp)

variable {miner : Miner} {ps : Participants} {stage stage' : Stage} {shared shared' : Shared}
  {m : Moment} {l l' : Ledger} {b : Block} {clock stamp : Int64}

namespace Stage.InTime

theorem of_aim_eq_none (h : stage.aim? = none) : stage.InTime l := fun height ha => by
  rw [h] at ha
  cases ha

theorem congr (h : stage.InTime l) (hc : l'.chain = l.chain) : stage.InTime l' := by
  rw [InTime, Ledger.last_congr hc, Ledger.size_congr hc]
  exact h

/-- Who was overtaken is too low to be accepted, whatever time the block carries. -/
theorem extend (h : stage.InTime l) (b : Block) : stage.InTime (l.extend b) := fun height ha => by
  obtain ⟨hz, hle, _⟩ := h height ha
  rw [Ledger.size_extend]
  exact ⟨hz, Nat.le_succ_of_le hle, fun he => absurd he (Nat.ne_of_lt (Nat.lt_succ_of_le hle))⟩

end Stage.InTime

/-- The time of a block is read once, when its height is settled. -/
theorem stamp_cases (h : miner.step ps stage shared m = (stage', shared'))
    (hs : stage'.stamp? = some stamp) :
    stage'.aim? = stage.aim? ∧ (stage.stamp? = some stamp ∨ stamp = m.now) := by
  unfold step at h
  cases stage with
  | timing candidate =>
    dsimp only at h
    split at h
    · rename_i time ht
      cases h
      cases hs
      exact ⟨rfl, .inr (Moment.eq_now_of_time ht)⟩
    · cases h
      cases hs
  | searching candidate timestamp =>
    dsimp only at h
    split at h
    · cases h
      cases hs
    · split at h
      · rename_i block hb
        cases h
        cases hs
        obtain ⟨nonce, hash, rfl⟩ := (Candidate.makes_of_firstHit hb).eq_block
        exact ⟨rfl, .inl rfl⟩
      · cases h
        exact ⟨rfl, .inl hs⟩
  -- No other stage leads to one with a time.
  | deciding | looking | submitting block =>
    dsimp only at h
    split at h
    · cases h
      cases hs
    · cases h
      cases hs
  | paying height =>
    generalize miner.pay ps shared.ledger m = outcome at h
    cases outcome with
    | ok paid | error e =>
      cases h
      cases hs
  | announcing height | failed e | done =>
    cases h
    cases hs

/-- A turn keeps the chain rising, now up to the time of that turn, and every block in the making in
time. -/
theorem inTime_step (hr : shared.ledger.Rising clock) (h : stage.InTime shared.ledger)
    (hclock : clock ≤ m.now) (hstep : miner.step ps stage shared m = (stage', shared')) :
    shared'.ledger.Rising m.now ∧ stage'.InTime shared'.ledger ∧
      ∀ other : Stage, other.InTime shared.ledger → other.InTime shared'.ledger := by
  rcases step_cases hstep with hcalm | ⟨block, rfl, hp, rfl, rfl⟩ | ⟨rfl, rfl, rfl⟩
  · have hchain := hcalm.around.chain
    refine ⟨hr.later hchain hclock, ?_, fun other ho => ho.congr hchain⟩
    refine Stage.InTime.congr (fun height ha => ?_) hchain
    have hstamp : height.toNat = shared.ledger.size + 1 → ∀ stamp, stage'.stamp? = some stamp →
        shared.ledger.last.timestamp < stamp := by
      intro he stamp hs
      obtain ⟨hsame, hs⟩ := stamp_cases hstep hs
      rcases hs with hs | rfl
      · exact (h height (hsame ▸ ha)).2.2 he stamp hs
      · exact Int64.lt_of_lt_of_le hr.passed hclock
    rcases hcalm.aim height ha with hold | ⟨hlow, rfl⟩
    · obtain ⟨hz, hle, _⟩ := h height hold
      exact ⟨hz, hle, hstamp⟩
    · have hnext := hr.toNat_next hlow
      refine ⟨fun hz => ?_, Nat.le_of_eq hnext, hstamp⟩
      rw [hz] at hnext
      cases hnext
  · obtain ⟨hz, hle, hlater⟩ := h block.height rfl
    have hnext := hp.toNat_height_of_ne_zero hr.size_lt hz
    exact ⟨hr.extend hp hz (hlater hnext _ rfl), .of_aim_eq_none rfl,
      fun other ho => ho.extend block⟩
  · exact ⟨hr.later rfl hclock, .of_aim_eq_none rfl, fun other ho => ho⟩

end Miner

/-! ## Any number of miners -/

namespace Arena

theorem play_append (a : Arena) (before after : List Move) :
    a.play (before ++ after) = (a.play before).play after := List.foldl_append

theorem play_singleton (a : Arena) (move : Move) : a.play [move] = a.step move := rfl

/-- What the clock shows in a move. -/
def Move.reading? : Move → Option Int64
  | .turn _ m => some m.now
  | _ => none

/-- What the clock shows from move to move. -/
def readings (moves : List Move) : List Int64 := moves.filterMap Move.reading?

/-- The chain rises up to the clock, and so it will with each block in the making. -/
structure Punctual (clock : Int64) (a : Arena) : Prop where
  rising : a.shared.ledger.Rising clock
  workers : ∀ w ∈ a.miners, w.2.InTime a.shared.ledger

variable {a : Arena} {clock : Int64}

theorem Punctual.step (h : a.Punctual clock) {move : Move}
    (hclock : ∀ now, move.reading? = some now → clock ≤ now) :
    (a.step move).Punctual (move.reading?.getD clock) := by
  rcases a.step_cases move with
    ⟨hs, hm⟩ | ⟨before, miner, stage, after, worker, m, stage', shared', rfl, hm, ht, hb, rfl⟩
  · have hle : clock ≤ move.reading?.getD clock := by
      cases hr : move.reading? with
      | none => exact Int64.le_refl clock
      | some now => exact hclock now hr
    refine ⟨h.rising.later hs.chain hle, ?_⟩
    rw [hm]
    exact fun w hw => (h.workers w hw).congr hs.chain
  · have hworkers := h.workers
    rw [hm] at hworkers
    rw [List.forall_mem_append, List.forall_mem_cons] at hworkers
    obtain ⟨hbefore, hself, hafter⟩ := hworkers
    obtain ⟨hrising, hself, hothers⟩ := Miner.inTime_step h.rising hself (hclock m.now rfl) ht
    refine ⟨hrising, ?_⟩
    rw [hb, List.forall_mem_append, List.forall_mem_cons]
    exact ⟨fun w hw => hothers _ (hbefore w hw), hself, fun w hw => hothers _ (hafter w hw)⟩

theorem Punctual.play (h : a.Punctual clock) {moves : List Move}
    (hclock : (clock :: readings moves).Pairwise (· ≤ ·)) :
    ∃ clock', (a.play moves).Punctual clock' := by
  induction moves generalizing a clock with
  | nil => exact ⟨clock, h⟩
  | cons move moves ih =>
    obtain ⟨hfirst, hlater⟩ := List.pairwise_cons.mp hclock
    cases hr : move.reading? with
    | none =>
      have hsame : readings (move :: moves) = readings moves := List.filterMap_cons_none hr
      have hstep := h.step (fun now hn => by rw [hr] at hn; cases hn)
      rw [hr] at hstep
      rw [hsame] at hclock
      exact ih hstep hclock
    | some now =>
      have hcons : readings (move :: moves) = now :: readings moves := List.filterMap_cons_some hr
      rw [hcons] at hfirst hlater
      have hstep := h.step fun now' hn => by
        rw [hr] at hn
        cases hn
        exact hfirst now List.mem_cons_self
      rw [hr] at hstep
      exact ih hstep hlater

/-- Miners begin on a ledger of the first block, as many as there are and each with its own target,
and whatever else happens comes between their turns in any order. If the clock is positive and never
goes back, the times of the blocks rise strictly in whatever they come to, and the average over any
window that the difficulty looks at is positive, on a machine as well. -/
theorem times_rise (a : Arena) (difficulty : Nat) (moves : List Move)
    (hledger : a.shared.ledger = .withDifficulty difficulty)
    (hminers : ∀ w ∈ a.miners, w.2 = .deciding) (hpositive : ∀ now ∈ readings moves, 0 < now)
    (hclock : (readings moves).Pairwise (· ≤ ·)) :
    let l := (a.play moves).shared.ledger
    (timesOf l.chain).Pairwise (· < ·) ∧
      ∀ height ≤ l.size, Difficulty.Adjusts height →
        ∃ average, Difficulty.averageGap (timesOf l.chain) height = some average ∧
          Difficulty.machineAverage? (timesOf l.chain) height = some average ∧ 0 < average := by
  intro l
  have hstart : a.Punctual 1 := by
    refine ⟨hledger ▸ Ledger.rising_withDifficulty difficulty, fun w hw => .of_aim_eq_none ?_⟩
    rw [hminers w hw]
    rfl
  have hfirst : ∀ now ∈ readings moves, 1 ≤ now := fun now hn => by
    have := hpositive now hn
    rw [Int64.lt_iff_toInt_lt] at this
    rw [Int64.le_iff_toInt_le]
    exact this
  obtain ⟨clock, hend⟩ := hstart.play (List.pairwise_cons.mpr ⟨hfirst, hclock⟩)
  have hrising : l.Rising clock := hend.rising
  refine ⟨List.isChain_iff_pairwise.mp hrising.rises, fun height hle ha => ?_⟩
  have hlen : height < (timesOf l.chain).length := by
    rw [timesOf, List.length_map, l.length_chain]
    exact Nat.lt_succ_of_le hle
  have hwords : ∀ time ∈ timesOf l.chain, 0 ≤ time ∧ time ≤ Int64.maxValue.toInt := by
    intro time ht
    refine ⟨hrising.nonneg time ht, ?_⟩
    obtain ⟨b, _, rfl⟩ := List.mem_map.mp ht
    exact b.timestamp.toInt_le
  obtain ⟨average, haverage, hpos⟩ :=
    Difficulty.averageGap_pos hrising.rises hwords hlen ha
  refine ⟨average, haverage, ?_, hpos⟩
  rw [Difficulty.machineAverage?_eq hlen ha (Difficulty.inWords_of_nonneg hwords _ _), haverage]

/-! ### A race

Three miners with one wallet. Two of them find a block at the same height and at the same time, and
one is late with it. It begins again, and the third goes on from there. -/

section

variable {miner : Miner} {stage stage' : Miner.Stage} {shared' : Shared} {place : Nat} {m : Moment}
  {b : Block}

/-- With this miner at this stage. -/
def put (a : Arena) (place : Nat) (miner : Miner) (stage : Miner.Stage) : Arena :=
  { a with miners := a.miners.set place (miner, stage) }

theorem put_put (a : Arena) (place : Nat) (miner : Miner) (stage stage' : Miner.Stage) :
    (a.put place miner stage).put place miner stage' = a.put place miner stage' := by
  simp only [put, List.set_set]

theorem getElem?_put (h : a.miners[place]? = some (miner, stage)) :
    (a.put place miner stage').miners[place]? = some (miner, stage') := by
  obtain ⟨hlt, _⟩ := List.getElem?_eq_some_iff.mp h
  exact List.getElem?_set_self hlt

theorem step_eq_put (h : a.miners[place]? = some (miner, stage))
    (hs : miner.step a.participants stage a.shared m = (stage', shared')) :
    a.step (.turn (.miner place) m) = { a with shared := shared' }.put place miner stage' := by
  rw [step, turn, h]
  dsimp only [put]
  rw [hs]

/-- A step that leaves everything that is shared as it is. -/
theorem step_put (h : a.miners[place]? = some (miner, stage))
    (hs : miner.step a.participants stage a.shared m = (stage', a.shared)) :
    a.step (.turn (.miner place) m) = a.put place miner stage' := step_eq_put h hs

/-- Decides, looks, reads the clock and searches, all in one moment. -/
def finds (place : Nat) (m : Moment) : List Move := List.replicate 4 (.turn (.miner place) m)

def handsIn (place : Nat) (m : Moment) : List Move := [.turn (.miner place) m]

theorem play_finds (h : a.miners[place]? = some (miner, .deciding)) (hepoch : 0 ≤ m.now)
    (hstop : a.shared.stopped = false) (hsize : a.shared.ledger.size < miner.target.toNat)
    (hlow : a.shared.ledger.last.height < miner.target)
    (hattempt :
      let c := a.shared.ledger.snapshot.candidate (toString miner.id.toNat)
        miner.participant.address
      c.attempt? m.now (c.nonces m.chance 0) = some b) :
    a.play (finds place m) = a.put place miner (.submitting b) := by
  have hdecide : miner.step a.participants .deciding a.shared m = (.looking, a.shared) :=
    if_pos ⟨hsize, by rw [hstop]; rfl⟩
  have hlook : miner.step a.participants .looking a.shared m =
      (.timing (a.shared.ledger.snapshot.candidate (toString miner.id.toNat)
        miner.participant.address), a.shared) := if_neg (UInt32.not_le.mpr hlow)
  generalize a.shared.ledger.snapshot.candidate (toString miner.id.toNat)
    miner.participant.address = c at hattempt hlook
  have htime : miner.step a.participants (.timing c) a.shared m =
      (.searching c m.now, a.shared) := by
    unfold Miner.step
    dsimp only
    rw [Moment.time_of_nonneg hepoch]
  have hfirst : c.firstHit m.now (c.nonces m.chance) Candidate.pollInterval 0 = some b :=
    Option.or_eq_some_iff.mpr (.inl hattempt)
  have hsearch : miner.step a.participants (.searching c m.now) a.shared m =
      (.submitting b, a.shared) := by
    unfold Miner.step
    dsimp only
    rw [hstop, if_neg Bool.false_ne_true, hfirst]
  simp only [play, finds, List.replicate, List.foldl_cons, List.foldl_nil]
  rw [step_put h hdecide, step_put (getElem?_put h) hlook, put_put,
    step_put (getElem?_put h) htime, put_put, step_put (getElem?_put h) hsearch, put_put]

theorem play_accepted (h : a.miners[place]? = some (miner, .submitting b)) (hepoch : 0 ≤ m.now)
    (hb : a.shared.ledger.Acceptable b m.now) :
    a.play (handsIn place m) =
      { a with shared := { a.shared with ledger := a.shared.ledger.extend b } }.put place miner
        (.paying b.height) := by
  rw [handsIn, play_singleton]
  refine step_eq_put h ?_
  unfold Miner.step
  dsimp only
  rw [Moment.deadline_of_nonneg hepoch, Ledger.append_eq_ok_iff.mpr ⟨hb, rfl⟩]

theorem play_late (h : a.miners[place]? = some (miner, .submitting b))
    (hne : b.height ≠ UInt32.ofNat a.shared.ledger.chain.length) :
    a.play (handsIn place m) = a.put place miner .deciding := by
  rw [handsIn, play_singleton]
  refine step_put h ?_
  unfold Miner.step
  dsimp only
  rw [Ledger.append_of_height_ne hne]

end

/-- Nothing at all is enough of a wallet to be paid. -/
def blank : Wallet := ⟨[], []⟩

theorem address_blank : blank.address = "1HT7xU2Ngenf7D4yocz2SAcnNLW7rK8d4E" := by
  simp only [blank, Wallet.address, Address.ofPublicKey, Address.ofFingerprint, hash160, checksum,
    sha256_eq]
  decide +kernel

def digger (id : UInt32) : Miner := ⟨id, ⟨"Digger", blank⟩, 3⟩

def crew (l : Ledger) (s₀ s₁ s₂ : Miner.Stage) : Arena where
  settings := Settings.defaults
  participants := ⟨[], []⟩
  shared := ⟨l, false, []⟩
  miners := [(digger 0, s₀), (digger 1, s₁), (digger 2, s₂)]
  clients := none

def dug (height : UInt32) (timestamp : Int64) (previousHash hash minerName : String) : Block where
  height := height
  timestamp := timestamp
  digest := "6ca1aa5edf136278a39a5593cdae47d776a5b8d489f23de573eb7c90f6c7f9a0"
  nonce := 773419
  previousHash := previousHash
  hash := hash
  minerName := minerName
  reward := some ⟨"1HT7xU2Ngenf7D4yocz2SAcnNLW7rK8d4E", 100⟩
  transactions := []

/-- The same block by either of two miners. -/
def first (minerName : String) : Block :=
  dug 1 1600000000554 "0" "0059b020838c02779700fd1ccf53e35f93c13c835c73215f4bd359f498b70f89"
    minerName

def second : Block :=
  dug 2 1600000005781 (first "0").hash
    "00a1aec55b4ea6865bea6af1829e5fd7d873a00675df9790e950f85dcb7a76c5" "1"

def third : Block :=
  dug 3 1600000010138 second.hash
    "00a590ae6b5a0237951ada58b925f093f94e38ad0d7ec59ca2a6b9135019a219" "2"

theorem digested_race : transactionsDigest [] =
    "6ca1aa5edf136278a39a5593cdae47d776a5b8d489f23de573eb7c90f6c7f9a0" := by
  rw [transactionsDigest, sha256Hex_eq]
  decide +kernel

theorem hashed_race : (first "0").computedHash = (first "0").hash ∧
    second.computedHash = second.hash ∧ third.computedHash = third.hash := by
  simp only [Block.computedHash, Header.hash, sha256Hex_eq]
  decide +kernel

theorem fits_first (minerName : String) : Acceptance.Fits (first minerName) Block.genesis 2 where
  linked := rfl
  worked := (by decide : meetsDifficulty (first "0").hash 2 = true)
  digested := digested_race
  hashed := hashed_race.1

theorem fits_second : Acceptance.Fits second (first "0") 2 where
  linked := rfl
  worked := by decide
  digested := digested_race
  hashed := hashed_race.2.1

theorem fits_third : Acceptance.Fits third second 2 where
  linked := rfl
  worked := by decide
  digested := digested_race
  hashed := hashed_race.2.2

def withFirst : Ledger := (Ledger.withDifficulty 2).extend (first "0")
def withSecond : Ledger := withFirst.extend second
def withThird : Ledger := withSecond.extend third

theorem first_acceptable : (Ledger.withDifficulty 2).Acceptable (first "0") 1600000000555 :=
  ⟨rfl, by decide, fits_first "0", rfl, rfl⟩

theorem second_acceptable : withFirst.Acceptable second 1600000005782 :=
  ⟨rfl, by decide, fits_second, rfl, rfl⟩

theorem third_acceptable : withSecond.Acceptable third 1600000010139 :=
  ⟨rfl, by decide, fits_third, rfl, rfl⟩

/-- Whatever is drawn, it is this number. -/
def lucky (now : Int64) : Moment := ⟨now, ⟨fun _ _ => 773419, 0⟩⟩

/-- The next block is found at once, if its nonce is the one that is drawn first. -/
theorem attempt?_race {l : Ledger} {b : Block} {id : UInt32} (hzeros : l.difficulty.zeros = 2)
    (hfits : Acceptance.Fits b l.last 2) (hheight : b.height = l.last.height + 1)
    (hpool : b.transactions = l.pool) (hname : b.minerName = toString id.toNat)
    (hreward : b.reward = some ⟨"1HT7xU2Ngenf7D4yocz2SAcnNLW7rK8d4E", rewardValue⟩)
    (hnonce : b.nonce = 773419) :
    let c := l.snapshot.candidate (toString id.toNat) blank.address
    c.attempt? b.timestamp (c.nonces (lucky b.timestamp).chance 0) = some b := by
  intro c
  have hc : c = .on l.last b.transactions b.minerName
      ⟨"1HT7xU2Ngenf7D4yocz2SAcnNLW7rK8d4E", rewardValue⟩ 2 := by
    rw [hpool, hname, ← hzeros, ← address_blank]
    rfl
  have hbound : c.nonceBound = 1000000 := by
    have hd : c.difficulty = 2 := by rw [hc, Candidate.on]
    rw [Candidate.nonceBound, hd]
    decide
  have hn : c.nonces (lucky b.timestamp).chance 0 = b.nonce := by
    rw [Candidate.nonces, hbound, hnonce]
    rfl
  rw [hn, hc]
  exact Candidate.attempt?_of_fits hfits hheight hreward

def race : List Move :=
  finds 0 (lucky 1600000000554) ++ finds 1 (lucky 1600000000554) ++
    handsIn 0 (lucky 1600000000555) ++ handsIn 1 (lucky 1600000000555) ++
    finds 1 (lucky 1600000005781) ++ handsIn 1 (lucky 1600000005782) ++
    finds 2 (lucky 1600000010138) ++ handsIn 2 (lucky 1600000010139)

theorem play_race : (crew (.withDifficulty 2) .deciding .deciding .deciding).play race =
    crew withThird (.paying 1) (.paying 2) (.paying 3) := by
  have hfirst : (crew (.withDifficulty 2) .deciding .deciding .deciding).play
      (finds 0 (lucky 1600000000554)) =
        crew (.withDifficulty 2) (.submitting (first "0")) .deciding .deciding :=
    play_finds rfl (by decide) rfl (by decide) (by decide)
      (attempt?_race (b := first "0") rfl (fits_first "0") rfl rfl rfl rfl rfl)
  have hrival : (crew (.withDifficulty 2) (.submitting (first "0")) .deciding .deciding).play
      (finds 1 (lucky 1600000000554)) =
        crew (.withDifficulty 2) (.submitting (first "0")) (.submitting (first "1")) .deciding :=
    play_finds rfl (by decide) rfl (by decide) (by decide)
      (attempt?_race (b := first "1") rfl (fits_first "1") rfl rfl rfl rfl rfl)
  have hwon : (crew (.withDifficulty 2) (.submitting (first "0")) (.submitting (first "1"))
      .deciding).play (handsIn 0 (lucky 1600000000555)) =
        crew withFirst (.paying 1) (.submitting (first "1")) .deciding :=
    play_accepted rfl (by decide) first_acceptable
  have hlost : (crew withFirst (.paying 1) (.submitting (first "1")) .deciding).play
      (handsIn 1 (lucky 1600000000555)) = crew withFirst (.paying 1) .deciding .deciding :=
    play_late rfl (by decide)
  have hsecond : (crew withFirst (.paying 1) .deciding .deciding).play
      (finds 1 (lucky 1600000005781)) = crew withFirst (.paying 1) (.submitting second) .deciding :=
    play_finds rfl (by decide) rfl (by decide) (by decide)
      (attempt?_race (b := second) rfl fits_second rfl rfl rfl rfl rfl)
  have hnext : (crew withFirst (.paying 1) (.submitting second) .deciding).play
      (handsIn 1 (lucky 1600000005782)) = crew withSecond (.paying 1) (.paying 2) .deciding :=
    play_accepted rfl (by decide) second_acceptable
  have hthird : (crew withSecond (.paying 1) (.paying 2) .deciding).play
      (finds 2 (lucky 1600000010138)) =
        crew withSecond (.paying 1) (.paying 2) (.submitting third) :=
    play_finds rfl (by decide) rfl (by decide) (by decide)
      (attempt?_race (b := third) rfl fits_third rfl rfl rfl rfl rfl)
  have hlast : (crew withSecond (.paying 1) (.paying 2) (.submitting third)).play
      (handsIn 2 (lucky 1600000010139)) = crew withThird (.paying 1) (.paying 2) (.paying 3) :=
    play_accepted rfl (by decide) third_acceptable
  simp only [race, play_append]
  rw [hfirst, hrival, hwon, hlost, hsecond, hnext, hthird, hlast]

/-- One of two miners is late with the block at height 1, and the times on the chain rise. -/
theorem times_rise_race :
    let l := ((crew (.withDifficulty 2) .deciding .deciding .deciding).play race).shared.ledger
    timesOf l.chain = [0, 1600000000554, 1600000005781, 1600000010138] ∧
      (timesOf l.chain).Pairwise (· < ·) ∧
      ∃ average, Difficulty.averageGap (timesOf l.chain) 3 = some average ∧ 0 < average := by
  have hminers : ∀ w ∈ (crew (.withDifficulty 2) .deciding .deciding .deciding).miners,
      w.2 = .deciding := by simp [crew]
  have hpositive : ∀ now ∈ readings race, 0 < now := by
    simp [readings, race, finds, handsIn, lucky, Move.reading?]
  have hrise := times_rise (crew (.withDifficulty 2) .deciding .deciding .deciding) 2 race rfl
    hminers hpositive (by decide +kernel)
  rw [play_race] at hrise ⊢
  obtain ⟨hrise, hwindows⟩ := hrise
  obtain ⟨average, haverage, _, hpos⟩ := hwindows 3 (by decide) (by decide)
  exact ⟨rfl, hrise, average, haverage, hpos⟩

end Arena

end WorkLedger
