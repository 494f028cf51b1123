import Mathlib.Data.List.Basic
import Mathlib.Data.List.Infix
import WorkLedger.Difficulty

/-! The difficulty is not stored. A ledger moves it after each block, and a loaded chain has it
counted again from the times of all blocks. The two agree because the average at a height looks at
no time that comes later: one more block leaves all earlier steps as they were and adds at most one,
so what was moved block by block is what is counted at the end. Counted from two starts, the harder
one stays at least as hard. -/

namespace WorkLedger

namespace Difficulty

/-- Heights at which the difficulty is looked at again. -/
def Adjusts (height : Nat) : Prop := height ≠ 0 ∧ height % period = 0

instance (height : Nat) : Decidable (Adjusts height) :=
  inferInstanceAs (Decidable (height ≠ 0 ∧ height % period = 0))

theorem lt_of_mem_adjustmentHeights {height count : Nat} (h : height ∈ adjustmentHeights count) :
    height < count := by
  obtain ⟨i, hi, rfl⟩ := List.mem_map.mp h
  rw [List.mem_range] at hi
  simp only [period] at hi ⊢
  omega

theorem adjustmentHeights_succ (count : Nat) :
    adjustmentHeights (count + 1) =
      adjustmentHeights count ++ if Adjusts count then [count] else [] := by
  simp only [adjustmentHeights, Nat.add_sub_cancel]
  by_cases h : Adjusts count
  · obtain ⟨hn, hm⟩ := h
    simp only [period] at hm ⊢
    have hq : count / 3 = (count - 1) / 3 + 1 := by omega
    have hc : (count - 1) / 3 * 3 + 3 = count := by omega
    simp [Adjusts, period, hn, hm, hq, List.range_succ, Nat.add_mul, hc]
  · have hq : count / period = (count - 1) / period := by
      simp only [Adjusts, period] at h ⊢
      omega
    rw [if_neg h, hq, List.append_nil]

/-- A time that comes after a height has no part in the average there. -/
theorem averageGap_append {times : List Int} {height : Nat} (h : height < times.length)
    (later : List Int) : averageGap (times ++ later) height = averageGap times height := by
  have hl : height < (times ++ later).length := by
    rw [List.length_append]
    omega
  have ht : (times ++ later).take (height + 1) = times.take (height + 1) :=
    List.take_append_of_le_length h
  simp only [averageGap, h, hl, ht]

theorem step_append {times : List Int} {height : Nat} (h : height < times.length)
    (later : List Int) (d : Difficulty) : d.step (times ++ later) height = d.step times height := by
  rw [step, step, averageGap_append h]

/-- The difficulty after a chain whose blocks were made at these times, counted from any start. -/
def recount (start : Difficulty) (times : List Int) : Difficulty :=
  (adjustmentHeights times.length).foldl (fun d height => d.step times height) start

/-- The first block moves nothing. -/
theorem recount_singleton (start : Difficulty) (time : Int) : start.recount [time] = start := by
  simp [recount, adjustmentHeights]

theorem ofChain_singleton (b : Block) : ofChain [b] = initial := recount_singleton initial _

/-- One more time makes one more step, or none. -/
theorem recount_snoc (start : Difficulty) (times : List Int) (time : Int) :
    start.recount (times ++ [time]) =
      if Adjusts times.length then (start.recount times).step (times ++ [time]) times.length
      else start.recount times := by
  -- The steps that were counted before do not see the new time.
  have hearlier : (adjustmentHeights times.length).foldl
      (fun d height => d.step (times ++ [time]) height) start = start.recount times :=
    List.foldl_ext _ _ _ fun d _ hm => step_append (lt_of_mem_adjustmentHeights hm) [time] d
  rw [recount, List.length_append, List.length_singleton, adjustmentHeights_succ,
    List.foldl_append, hearlier]
  split <;> rfl

/-- Moving the difficulty after a block lands where counting again from the same start does. -/
theorem recount_timesOf_snoc (start : Difficulty) {chain : List Block} {b : Block}
    (h : b.height.toNat = chain.length) :
    start.recount (timesOf (chain ++ [b])) =
      (start.recount (timesOf chain)).adjust (chain ++ [b]) := by
  have hl : (timesOf chain).length = chain.length := List.length_map _
  have ht : timesOf (chain ++ [b]) = timesOf chain ++ [b.timestamp.toInt] := List.map_append
  have ha : (chain.length = 0 ∨ chain.length % period ≠ 0) ↔ ¬Adjusts chain.length := by
    rw [Adjusts, not_and_or, Decidable.not_not]
  rw [adjust, List.getLast?_concat]
  simp only [ht, recount_snoc, hl, h, ha, ite_not]

/-- The same from where a loaded chain is counted. -/
theorem ofChain_snoc {chain : List Block} {b : Block} (h : b.height.toNat = chain.length) :
    ofChain (chain ++ [b]) = (ofChain chain).adjust (chain ++ [b]) :=
  recount_timesOf_snoc initial h

/-! ## Block by block -/

/-- Where the difficulty gets from a start when these blocks come one after the other: it is moved
at each of them, by what the chain is then. -/
def live (start : Difficulty) (blocks : List Block) : Difficulty :=
  blocks.inits.tail.foldl adjust start

theorem live_snoc (start : Difficulty) (blocks : List Block) (b : Block) :
    live start (blocks ++ [b]) = (live start blocks).adjust (blocks ++ [b]) := by
  have hne : blocks.inits ≠ [] := by cases blocks <;> simp
  have hi : (blocks ++ [b]).inits.tail = blocks.inits.tail ++ [blocks ++ [b]] := by
    rw [List.inits_append, List.tail_append_of_ne_nil hne]
    simp
  rw [live, hi, List.foldl_append, ← live, List.foldl_cons, List.foldl_nil]

theorem live_take_succ (start : Difficulty) {blocks : List Block} {k : Nat}
    (h : k < blocks.length) :
    live start (blocks.take (k + 1)) =
      (live start (blocks.take k)).adjust (blocks.take (k + 1)) := by
  rw [List.take_succ_eq_append_getElem h, live_snoc]

/-- Moving the difficulty at each block lands where counting at the end does. -/
theorem live_eq_recount (start : Difficulty) {blocks : List Block}
    (h : blocks.map (·.height.toNat) = List.range blocks.length) :
    live start blocks = start.recount (timesOf blocks) := by
  induction blocks using List.reverseRecOn with
  | nil => rfl
  | append_singleton blocks b ih =>
    rw [List.length_append, List.length_singleton, List.range_succ, List.map_append] at h
    obtain ⟨hblocks, hb⟩ := List.append_inj' h rfl
    have hb : b.height.toNat = blocks.length := by simpa using hb
    rw [live_snoc, ih hblocks, recount_timesOf_snoc start hb]

/-- A step that leads out of what is allowed is not taken. -/
theorem zeros_next (d : Difficulty) (seconds : Int) :
    (d.next seconds).zeros =
      if seconds < 12 ∧ d.zeros < 6 then d.zeros + 1
      else if 18 < seconds ∧ 2 < d.zeros then d.zeros - 1
      else d.zeros := by
  unfold next
  split
  · rfl
  · split <;> rfl

/-- One block moves the difficulty by one at most, and by nothing where there is no room for it. -/
theorem zeros_adjust_cases (d : Difficulty) (chain : List Block) :
    (d.adjust chain).zeros = d.zeros ∨
      (d.zeros < 6 ∧ (d.adjust chain).zeros = d.zeros + 1) ∨
      (2 < d.zeros ∧ (d.adjust chain).zeros = d.zeros - 1) := by
  have hnext (seconds : Int) : (d.next seconds).zeros = d.zeros ∨
      (d.zeros < 6 ∧ (d.next seconds).zeros = d.zeros + 1) ∨
      (2 < d.zeros ∧ (d.next seconds).zeros = d.zeros - 1) := by
    rw [zeros_next]
    split
    · omega
    · split <;> omega
  unfold adjust
  cases chain.getLast? with
  | none => exact .inl rfl
  | some newest =>
    dsimp only
    split
    · exact .inl rfl
    · unfold step
      split
      · exact hnext _
      · exact .inl rfl

/-- A ledger that starts where every ledger does and moves its difficulty at each block has, after
all of them, what a recount of their times gives, which is what it would have from loading them. And
from any start the difficulty never leaves its range on the way: where there is room it moves by one
or not at all, and elsewhere it stays. -/
theorem live_eq_ofChain {blocks : List Block}
    (h : blocks.map (·.height.toNat) = List.range blocks.length) :
    (live initial blocks = ofTimes (timesOf blocks) ∧ live initial blocks = ofChain blocks) ∧
    ∀ start k : Nat,
      let now := (live (ofNat start) (blocks.take k)).zeros
      let after := (live (ofNat start) (blocks.take (k + 1))).zeros
      (2 ≤ now ∧ now ≤ 6) ∧
        (after = now ∨ (now < 6 ∧ after = now + 1) ∨ (2 < now ∧ after = now - 1)) := by
  have hl : live initial blocks = ofTimes (timesOf blocks) := live_eq_recount initial h
  refine ⟨⟨hl, hl⟩, fun start k => ⟨⟨two_le_zeros _, zeros_le_six _⟩, ?_⟩⟩
  by_cases hk : k < blocks.length
  · rw [live_take_succ (ofNat start) hk]
    exact zeros_adjust_cases _ _
  · -- All blocks have come.
    rw [List.take_of_length_le (Nat.not_lt.mp hk), List.take_of_length_le (by omega)]
    exact .inl rfl

/-- Blocks in their places, made at these times (ms) and otherwise like the first. -/
def timed (times : List Int64) : List Block :=
  times.zipIdx.map fun (time, i) => { Block.genesis with height := .ofNat i, timestamp := time }

/-- Three quick blocks and three slow ones: up to 6 and back to 5, and never out of the range from a
start that lies beyond it. -/
theorem live_eq_ofChain_timed :
    let blocks := timed [0, 0, 1000, 5000, 8000, 40000, 100000]
    blocks.map (·.height.toNat) = List.range blocks.length ∧
      (live initial (blocks.take 4)).zeros = 6 ∧ (live initial blocks).zeros = 5 ∧
      ∀ k, 2 ≤ (live (ofNat 9) (blocks.take k)).zeros ∧
        (live (ofNat 9) (blocks.take k)).zeros ≤ 6 := by
  intro blocks
  have hh : blocks.map (·.height.toNat) = List.range blocks.length := by decide
  have hquick : (blocks.take 4).map (·.height.toNat) = List.range (blocks.take 4).length := by
    decide
  obtain ⟨⟨_, hall⟩, hrange⟩ := live_eq_ofChain hh
  obtain ⟨⟨_, hfour⟩, _⟩ := live_eq_ofChain hquick
  have hf : (ofChain (blocks.take 4)).zeros = 6 ∧ (ofChain blocks).zeros = 5 := by decide
  refine ⟨hh, ?_, ?_, fun k => (hrange 9 k).1⟩
  · rw [hfour, hf.1]
  · rw [hall, hf.2]

/-! ## From two starts -/

/-- Counting goes on alike from two difficulties, so the harder one stays at least as hard: both
ends of what is allowed are kept for the two of them in the same way. -/
theorem next_mono {d e : Difficulty} (h : d.zeros ≤ e.zeros) (seconds : Int) :
    (d.next seconds).zeros ≤ (e.next seconds).zeros := by
  have hd := d.zeros_le_six
  have he := e.two_le_zeros
  rw [zeros_next, zeros_next]
  split_ifs <;> omega

theorem step_mono {d e : Difficulty} (h : d.zeros ≤ e.zeros) (times : List Int) (height : Nat) :
    (d.step times height).zeros ≤ (e.step times height).zeros := by
  unfold step
  split
  · exact next_mono h _
  · exact h

theorem recount_mono {d e : Difficulty} (h : d.zeros ≤ e.zeros) (times : List Int) :
    (d.recount times).zeros ≤ (e.recount times).zeros := by
  unfold recount
  generalize adjustmentHeights times.length = heights
  induction heights generalizing d e with
  | nil => exact h
  | cons height rest ih => exact ih (step_mono h times height)

end Difficulty

/-- A hash that shows the work of a difficulty shows the work of each lower one. -/
theorem meetsDifficulty_of_le {hash : String} {less more : Nat} (hle : less ≤ more)
    (h : meetsDifficulty hash more = true) : meetsDifficulty hash less = true := by
  rw [meetsDifficulty, decide_eq_true_eq] at h ⊢
  exact Nat.le_trans hle h

end WorkLedger
