import Mathlib.Data.List.GetD
import WorkLedger.Proofs.Rules.Recount

/-! One adjustment in exact terms. The gaps of a window add up to the time between its two ends.
Words that wrap around on the way do no harm, so only that time has to fit one. And cutting off
twice, first the average and then its milliseconds, is cutting off once: what is compared with the
bounds in seconds is the whole span with the bounds times the number of intervals. An average is too
slow from 19 seconds on, because 18 and a part of a second still count as 18. -/

namespace WorkLedger.Difficulty

/-! ## Words -/

/-- A word of 64 bits with a sign holds the number. -/
def FitsWord (x : Int) : Prop := Int64.minValue.toInt ≤ x ∧ x ≤ Int64.maxValue.toInt

instance (x : Int) : Decidable (FitsWord x) :=
  inferInstanceAs (Decidable (Int64.minValue.toInt ≤ x ∧ x ≤ Int64.maxValue.toInt))

theorem wrap_eq_bmod (x : Int) : wrap x = x.bmod Int64.size := Int64.toInt_ofInt

theorem wrap_of_fits {x : Int} (h : FitsWord x) : wrap x = x :=
  Int64.toInt_ofInt_of_le h.1 (Int.lt_add_one_of_le h.2)

/-- Words that have wrapped around add up to what they would have added up to. -/
theorem wrap_add_wrap (x y : Int) : wrap (wrap x + wrap y) = wrap (x + y) := by
  simp only [wrap_eq_bmod, Int.bmod_add_bmod, Int.add_bmod_bmod]

/-! ## The average of a window -/

/-- Where the window begins that ends at this height. -/
def windowStart (height : Nat) : Nat := max (height - window) 1

theorem windowStart_lt {height : Nat} (h : Adjusts height) : windowStart height < height := by
  simp only [Adjusts, period, windowStart, window] at h ⊢
  omega

/-- The time at a place that is there. -/
def timeAt (times : List Int) (place : Nat) : Int := times.getD place 0

theorem getElem?_timeAt {times : List Int} {place : Nat} (h : place < times.length) :
    times[place]? = some (timeAt times place) := by
  rw [timeAt, List.getD_eq_getElem?_getD, List.getElem?_eq_getElem h, Option.getD_some]

/-- The time from the start of the window to its end. -/
def span (times : List Int) (height : Nat) : Int :=
  timeAt times height - timeAt times (windowStart height)

/-- Gaps add up to the time from the first entry to the last, as far as a word can tell. -/
theorem foldl_gaps (time : Int) (later : List Int) (sum : Int) :
    (gaps (time :: later)).foldl (fun sum gap => wrap (sum + gap)) (wrap sum) =
      wrap (sum + ((time :: later).getLast (List.cons_ne_nil _ _) - time)) := by
  induction later generalizing time sum with
  | nil => simp [gaps]
  | cons next later ih =>
    have hg : gaps (time :: next :: later) = wrap (next - time) :: gaps (next :: later) := rfl
    rw [hg, List.foldl_cons, wrap_add_wrap, ih, List.getLast_cons (List.cons_ne_nil next later)]
    congr 1
    omega

theorem total_gaps (time : Int) (later : List Int) :
    total (gaps (time :: later)) =
      wrap ((time :: later).getLast (List.cons_ne_nil _ _) - time) := by
  have hg := foldl_gaps time later 0
  rwa [Int.zero_add] at hg

theorem averageGap_eq {times : List Int} {height : Nat} (hlen : height < times.length)
    (hlt : windowStart height < height) :
    averageGap times height =
      some (Int.tdiv (wrap (span times height)) (height - windowStart height : Nat)) := by
  have htake : windowStart height < (times.take (height + 1)).length := by
    rw [List.length_take]
    omega
  have hcons := List.drop_eq_getElem_cons htake
  have hlast : ((times.take (height + 1)).drop (windowStart height)).getLast
      (by rw [hcons]; exact List.cons_ne_nil _ _) = times[height] := by
    rw [List.getLast_drop, List.getLast_eq_getElem]
    simp only [List.getElem_take, List.length_take]
    congr 1
    omega
  have hsum : total (gaps ((times.take (height + 1)).drop (windowStart height))) =
      wrap (span times height) := by
    rw [span, timeAt, timeAt, List.getD_eq_getElem _ _ hlen,
      List.getD_eq_getElem _ _ (hlt.trans hlen), ← hlast]
    simp only [hcons, total_gaps, List.getElem_take]
  rw [averageGap]
  dsimp only
  rw [← windowStart, if_pos ⟨hlen, hlt⟩, hsum]

/-- A block that is dated back by more than a word holds looks like one that took ages. -/
example : averageGap [0, 1000, 2000, Int64.minValue.toInt] 3 = some 4611686018427387404 := by decide

/-! ## On machine words -/

def word? (x : Int) : Option Int := if FitsWord x then some x else none

/-- The gap before the entry at a place: both times have to be there, and their difference has to
fit a word. -/
def gapAt? (times : List Int) (place : Nat) : Option Int := do
  let newer ← times[place]?
  let older ← times[place - 1]?
  word? (newer - older)

/-- The sum of so many gaps after a place, one by one. -/
def sumAfter? (times : List Int) (start count : Nat) : Option Int :=
  (List.range' (start + 1) count).foldlM
    (fun sum place => do word? (sum + (← gapAt? times place))) 0

/-- The average of a window as a machine gets it, with nothing done against what may go wrong: a
time that is not there, a number that does not fit, or no interval to divide by. -/
def machineAverage? (times : List Int) (height : Nat) : Option Int := do
  let intervals := height - windowStart height
  let sum ← sumAfter? times (windowStart height) intervals
  if intervals = 0 then none else some (Int.tdiv sum intervals)

/-- The gaps after a place fit into words, and so do their sums on the way. -/
def InWords (times : List Int) (start count : Nat) : Prop :=
  ∀ place ∈ List.range' (start + 1) count,
    FitsWord (timeAt times place - timeAt times (place - 1)) ∧
      FitsWord (timeAt times place - timeAt times start)

instance (times : List Int) (start count : Nat) : Decidable (InWords times start count) :=
  inferInstanceAs (Decidable (∀ place ∈ List.range' (start + 1) count, _))

/-- On the way through a window, the sum is the time since its start. -/
theorem sumAfter?_eq {times : List Int} {start count : Nat} (hlen : start + count < times.length)
    (hw : InWords times start count) :
    sumAfter? times start count = some (timeAt times (start + count) - timeAt times start) := by
  induction count with
  | zero => simp [sumAfter?]
  | succ count ih =>
    rw [InWords, List.range'_1_concat, List.forall_mem_append, List.forall_mem_singleton] at hw
    obtain ⟨hbefore, hgap, hsum⟩ := hw
    have hs := ih (by omega) hbefore
    have hplace : start + 1 + count = start + (count + 1) := by omega
    rw [hplace] at hgap hsum
    have hg : gapAt? times (start + (count + 1)) =
        some (timeAt times (start + (count + 1)) - timeAt times (start + (count + 1) - 1)) := by
      rw [gapAt?, getElem?_timeAt hlen, getElem?_timeAt (by omega)]
      exact if_pos hgap
    have hstep : timeAt times (start + count) - timeAt times start +
        (timeAt times (start + (count + 1)) - timeAt times (start + (count + 1) - 1)) =
          timeAt times (start + (count + 1)) - timeAt times start := by
      rw [show start + (count + 1) - 1 = start + count by omega]
      omega
    rw [sumAfter?] at hs ⊢
    rw [List.range'_1_concat, List.foldlM_append, hs, hplace]
    simp only [List.foldlM_cons, List.foldlM_nil, hg, bind_pure]
    exact (congrArg word? hstep).trans (if_pos hsum)

/-- Where an adjustment is made, nothing goes wrong but an overflow. -/
theorem machineAverage?_eq {times : List Int} {height : Nat} (hlen : height < times.length)
    (ha : Adjusts height)
    (hw : InWords times (windowStart height) (height - windowStart height)) :
    machineAverage? times height = averageGap times height := by
  have hlt := windowStart_lt ha
  have hend : windowStart height + (height - windowStart height) = height := by omega
  have hspan : FitsWord (span times height) := (hw height (List.mem_range'_1.mpr (by omega))).2
  rw [averageGap_eq hlen hlt, wrap_of_fits hspan, machineAverage?, sumAfter?_eq (by omega) hw, hend]
  exact if_neg (by omega)

/-! ## Bounds -/

theorem tdiv_nonpos {a b : Int} (ha : a ≤ 0) (hb : 0 ≤ b) : Int.tdiv a b ≤ 0 := by
  have h := Int.tdiv_nonneg (Int.neg_nonneg_of_nonpos ha) hb
  rw [Int.neg_tdiv] at h
  exact Int.nonpos_of_neg_nonneg h

/-- An average that is cut off twice reaches a number of seconds when the span does. -/
theorem le_seconds_iff {time : Int} {intervals : Nat} {seconds : Int} (hi : 0 < intervals)
    (hs : 0 < seconds) :
    seconds ≤ Int.tdiv (Int.tdiv time intervals) 1000 ↔ seconds * 1000 * intervals ≤ time := by
  have hi : (0 : Int) < intervals := Int.natCast_pos.mpr hi
  rcases Int.le_total 0 time with hp | hn
  · have hq : 0 ≤ time / intervals := Int.ediv_nonneg hp (Int.le_of_lt hi)
    rw [Int.tdiv_eq_ediv_of_nonneg hp, Int.tdiv_eq_ediv_of_nonneg hq,
      Int.le_ediv_iff_mul_le (by decide), Int.le_ediv_iff_mul_le hi]
  · -- A span that goes back is cut off toward zero, and stays below any bound.
    have hq : Int.tdiv time intervals ≤ 0 := tdiv_nonpos hn (Int.le_of_lt hi)
    have hr : Int.tdiv (Int.tdiv time intervals) 1000 ≤ 0 :=
      tdiv_nonpos hq (by decide)
    have hb : 0 < seconds * 1000 * intervals := Int.mul_pos (Int.mul_pos hs (by decide)) hi
    omega

/-- The step for a span over some intervals. -/
theorem zeros_next_span (d : Difficulty) (time : Int) {intervals : Nat} (hi : 0 < intervals) :
    (d.next (Int.tdiv (Int.tdiv time intervals) 1000)).zeros =
      if time < 12000 * intervals ∧ d.zeros < 6 then d.zeros + 1
      else if 19000 * intervals ≤ time ∧ 2 < d.zeros then d.zeros - 1
      else d.zeros := by
  have hfast : 12 ≤ Int.tdiv (Int.tdiv time intervals) 1000 ↔ _ := le_seconds_iff hi (by decide)
  have hslow : 19 ≤ Int.tdiv (Int.tdiv time intervals) 1000 ↔ _ := le_seconds_iff hi (by decide)
  have hlow : Int.tdiv (Int.tdiv time intervals) 1000 < 12 ↔ time < 12000 * intervals := by omega
  have hhigh : 18 < Int.tdiv (Int.tdiv time intervals) 1000 ↔ 19000 * intervals ≤ time := by omega
  rw [zeros_next]
  simp only [hlow, hhigh]

/-! ## The adjustment -/

theorem adjust_eq_ite (d : Difficulty) {chain : List Block} {newest : Block}
    (h : chain.getLast? = some newest) :
    d.adjust chain = if Adjusts newest.height.toNat then d.step (timesOf chain) newest.height.toNat
      else d := by
  have ha : (newest.height.toNat = 0 ∨ newest.height.toNat % period ≠ 0) ↔
      ¬Adjusts newest.height.toNat := by
    rw [Adjusts, not_and_or, Decidable.not_not]
  rw [adjust, h]
  simp only [ha, ite_not]

theorem timeAt_timesOf {chain : List Block} {place : Nat} {b : Block} (h : chain[place]? = some b) :
    timeAt (timesOf chain) place = b.timestamp.toInt := by
  rw [timeAt, timesOf, List.getD_eq_getElem?_getD, List.getElem?_map, h, Option.map_some,
    Option.getD_some]

/-- What a block in its place does to the difficulty. At a height that calls for an adjustment, the
window lies on the chain and has an interval, so its average comes out on a machine as well unless a
word overflows; and if the time between the ends of the window fits a word, the difficulty rises,
falls or stays as that time is below 12 seconds for each interval, at least 19, or neither. At any
other height it stays. -/
theorem zeros_adjust_eq (d : Difficulty) {chain : List Block} {newest : Block}
    (hnewest : chain.getLast? = some newest) (hheight : newest.height.toNat + 1 = chain.length) :
    let n := newest.height.toNat
    let e := max (n - 3) 1
    let k := n - e
    (n ≠ 0 ∧ n % 3 = 0 → 0 < k ∧ ∃ oldest, chain[e]? = some oldest ∧
      let time := newest.timestamp.toInt - oldest.timestamp.toInt
      (InWords (timesOf chain) e k →
        machineAverage? (timesOf chain) n = some (Int.tdiv time k)) ∧
      (FitsWord time → (d.adjust chain).zeros =
        if time < 12000 * k ∧ d.zeros < 6 then d.zeros + 1
        else if 19000 * k ≤ time ∧ 2 < d.zeros then d.zeros - 1
        else d.zeros)) ∧
    (¬(n ≠ 0 ∧ n % 3 = 0) → d.adjust chain = d) := by
  intro n e k
  have hadjust : d.adjust chain = if Adjusts n then d.step (timesOf chain) n else d :=
    adjust_eq_ite d hnewest
  refine ⟨fun ha => ?_, fun ha => hadjust.trans (if_neg ha)⟩
  have hlt : e < n := windowStart_lt ha
  have hk : 0 < k := Nat.sub_pos_of_lt hlt
  have hlen : n < (timesOf chain).length := by
    rw [timesOf, List.length_map]
    omega
  obtain ⟨oldest, ho⟩ : ∃ oldest, chain[e]? = some oldest :=
    ⟨_, List.getElem?_eq_getElem (by omega)⟩
  have hn : chain[n]? = some newest := by
    rw [← hnewest, List.getLast?_eq_getElem?, ← hheight, Nat.add_sub_cancel]
  have hspan : span (timesOf chain) n = newest.timestamp.toInt - oldest.timestamp.toInt := by
    rw [span, timeAt_timesOf hn, ← timeAt_timesOf ho]
    rfl
  have haverage (hf : FitsWord (newest.timestamp.toInt - oldest.timestamp.toInt)) :
      averageGap (timesOf chain) n =
        some (Int.tdiv (newest.timestamp.toInt - oldest.timestamp.toInt) k) := by
    rw [← hspan] at hf ⊢
    rw [averageGap_eq hlen hlt, wrap_of_fits hf]
    rfl
  refine ⟨hk, oldest, ho, fun hw => ?_, fun hf => ?_⟩
  · have hf := (hw n (List.mem_range'_1.mpr (by omega))).2
    rw [timeAt_timesOf hn, timeAt_timesOf ho] at hf
    exact (machineAverage?_eq hlen ha hw).trans (haverage hf)
  · rw [hadjust, if_pos (show Adjusts n from ha), step, haverage hf]
    exact zeros_next_span d _ hk

/-- The last block of a chain of four. -/
def fourth (timestamp : Int64) : Block :=
  { Block.genesis with height := 3, timestamp := timestamp }

/-- Two intervals of 18.9995 seconds on average are not too slow yet, and two of 19 are. -/
theorem zeros_adjust_eq_timed :
    let chain := timed [0, 0, 20000, 37999]
    let slower := timed [0, 0, 20000, 38000]
    chain.getLast? = some (fourth 37999) ∧ slower.getLast? = some (fourth 38000) ∧
      (fourth 37999).height.toNat + 1 = chain.length ∧ InWords (timesOf chain) 1 2 ∧
      machineAverage? (timesOf chain) 3 = some 18999 ∧ (initial.adjust chain).zeros = 5 ∧
      (initial.adjust slower).zeros = 4 := by
  intro chain slower
  have hnewest : chain.getLast? = some (fourth 37999) := rfl
  have hslower : slower.getLast? = some (fourth 38000) := rfl
  have hwords : InWords (timesOf chain) 1 2 := by decide
  obtain ⟨_, oldest, ho, haverage, hzeros⟩ := (zeros_adjust_eq initial hnewest rfl).1 (by decide)
  obtain ⟨_, oldest', ho', _, hzeros'⟩ := (zeros_adjust_eq initial hslower rfl).1 (by decide)
  cases ho
  cases ho'
  exact ⟨hnewest, hslower, rfl, hwords, haverage hwords, hzeros (by decide), hzeros' (by decide)⟩

end WorkLedger.Difficulty
