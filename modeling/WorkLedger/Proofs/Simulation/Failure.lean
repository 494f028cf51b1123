import WorkLedger.Proofs.Simulation.Clock
import WorkLedger.Proofs.Store.Reload
import WorkLedger.Simulation.Simulator

/-! Runs that fail. The coordinator takes one event, or sees that all workers are gone; it stops
everybody, waits for all to end, and takes what is left. Events come while it does so, errors among
them. What it keeps at any time is the first error of what it has taken, and it only answers when no
worker is left to send more, so its answer is the first error that was sent at all. A run with such
an answer returns it and leaves the store as it found it. -/

namespace WorkLedger

/-! ## The first error -/

namespace Event

/-- The first error among events, in the order they were sent. -/
def firstError? (events : List Event) : Option Error := events.findSome? error?

theorem firstError?_cons (e : Event) (rest : List Event) :
    firstError? (e :: rest) = e.error?.or (firstError? rest) := by
  cases h : e.error? with
  | none => simp [firstError?, h]
  | some error => simp [firstError?, h]

theorem firstError?_append (before after : List Event) :
    firstError? (before ++ after) = (firstError? before).or (firstError? after) :=
  List.findSome?_append

theorem foldl_or_error? (events : List Event) (error : Option Error) :
    events.foldl (fun error e => error.or e.error?) error = error.or (firstError? events) := by
  induction events generalizing error with
  | nil => exact Option.or_none.symm
  | cons e rest ih => rw [List.foldl_cons, ih, Option.or_assoc, firstError?_cons]

end Event

open Event (firstError? firstError?_append)

/-- Whatever the first event is, no error is lost behind it. -/
theorem Arena.drain_eq (events : List Event) : drain events = firstError? events := by
  cases events with
  | nil => rfl
  | cons first rest => rw [drain, Event.foldl_or_error?, Event.firstError?_cons]

/-! ## The coordinator -/

/-- What the coordinator is at, with the number of events that it took and the error that it keeps.
-/
inductive Coordinator
  /-- Waits for a first event, or for all workers to be gone. -/
  | receiving
  /-- Has stopped everybody, and waits for all to end. -/
  | joining (taken : Nat) (error : Option Error)
  /-- Takes what is left. -/
  | draining (taken : Nat) (error : Option Error)
  | answering (error : Option Error)

namespace Coordinator

/-- One step, with all that was sent so far in sight, and whether all workers have ended. -/
def next (events : List Event) (ended : Bool) : Coordinator → Coordinator
  | .receiving =>
    match events[0]? with
    | some e => .joining 1 e.error?
    | none => if ended then .joining 0 none else .receiving
  | .joining taken error => if ended then .draining taken error else .joining taken error
  | .draining taken error =>
    match events[taken]? with
    | some e => .draining (taken + 1) (error.or e.error?)
    | none => .answering error
  | .answering error => .answering error

/-- The error that is kept is the first one of the events taken so far. -/
def Keeps (events : List Event) (taken : Nat) (error : Option Error) : Prop :=
  taken ≤ events.length ∧ error = firstError? (events.take taken)

/-- What holds of a coordinator when these events were sent. -/
def Sound (events : List Event) (ended : Bool) : Coordinator → Prop
  | .receiving => True
  | .joining taken error => Keeps events taken error
  | .draining taken error => ended = true ∧ Keeps events taken error
  | .answering error => ended = true ∧ error = firstError? events

variable {events : List Event} {ended : Bool} {taken : Nat} {error : Option Error} {c : Coordinator}

theorem keeps_zero (events : List Event) : Keeps events 0 none := ⟨Nat.zero_le _, rfl⟩

theorem Keeps.succ (h : Keeps events taken error) {e : Event} (he : events[taken]? = some e) :
    Keeps events (taken + 1) (error.or e.error?) := by
  obtain ⟨hlt, _⟩ := List.getElem?_eq_some_iff.mp he
  refine ⟨hlt, ?_⟩
  rw [List.take_add_one, he, firstError?_append, ← h.2, Option.toList_some,
    Event.firstError?_cons]
  exact congrArg _ Option.or_none.symm

theorem Keeps.append (h : Keeps events taken error) (new : List Event) :
    Keeps (events ++ new) taken error := by
  refine ⟨Nat.le_trans h.1 (List.length_append ▸ Nat.le_add_right _ _), ?_⟩
  rw [List.take_append_of_le_length h.1, h.2]

/-- Nothing is left to take. -/
theorem Keeps.eq_firstError? (h : Keeps events taken error) (hnone : events[taken]? = none) :
    error = firstError? events := by
  rw [h.2, List.take_of_length_le (List.getElem?_eq_none_iff.mp hnone)]

theorem Sound.next (h : c.Sound events ended) : (c.next events ended).Sound events ended := by
  cases c with
  | receiving =>
    rw [Coordinator.next]
    cases he : events[0]? with
    | some e => exact (keeps_zero events).succ he
    | none =>
      cases ended with
      | true => exact keeps_zero events
      | false => exact h
  | joining taken error =>
    rw [Coordinator.next]
    cases ended with
    | true => exact ⟨rfl, h⟩
    | false => exact h
  | draining taken error =>
    obtain ⟨hend, hkeeps⟩ := h
    rw [Coordinator.next]
    cases he : events[taken]? with
    | some e => exact ⟨hend, hkeeps.succ he⟩
    | none => exact ⟨hend, hkeeps.eq_firstError? he⟩
  | answering error => exact h

/-- Events that come later change nothing, because none come after all workers have ended. -/
theorem Sound.later (h : c.Sound events ended) {new : List Event} {ended' : Bool}
    (hend : ended = true → ended' = true ∧ new = []) : c.Sound (events ++ new) ended' := by
  cases c with
  | receiving => trivial
  | joining taken error => exact Keeps.append h new
  | draining taken error => exact ⟨(hend h.1).1, h.2.append new⟩
  | answering error =>
    obtain ⟨he, rfl⟩ := hend h.1
    exact ⟨he, by rw [List.append_nil]; exact h.2⟩

/-- A bound on the steps up to the answer, once all workers have ended. -/
def stepsLeft (events : List Event) : Coordinator → Nat
  | .receiving => events.length + 3
  | .joining taken _ => events.length - taken + 2
  | .draining taken _ => events.length - taken + 1
  | .answering _ => 0

theorem stepsLeft_next (c : Coordinator) :
    (c.next events true).stepsLeft events ≤ c.stepsLeft events - 1 := by
  cases c with
  | receiving =>
    rw [next]
    cases events[0]? with
    | some e => simp only [stepsLeft]; omega
    | none => simp [stepsLeft]
  | joining taken error => simp [next, stepsLeft]
  | draining taken error =>
    rw [next]
    cases he : events[taken]? with
    | some e =>
      obtain ⟨hlt, _⟩ := List.getElem?_eq_some_iff.mp he
      simp only [stepsLeft]
      omega
    | none => simp [stepsLeft]
  | answering error => exact Nat.zero_le _

theorem stepsLeft_le (c : Coordinator) (events : List Event) :
    c.stepsLeft events ≤ events.length + 3 := by
  cases c <;> simp only [stepsLeft] <;> omega

theorem Sound.eq_answering (h : c.Sound events true) (hleft : c.stepsLeft events = 0) :
    c = .answering (firstError? events) := by
  cases c with
  | answering error => rw [h.2]
  | receiving | joining taken error | draining taken error => simp [stepsLeft] at hleft

end Coordinator

namespace Arena

/-- The coordinator takes its step when it has the turn. -/
def heed (a : Arena) (c : Coordinator) : Move → Coordinator
  | .turn .coordinator _ => c.next a.shared.events a.ended
  | _ => c

/-- Where the moves take a coordinator. -/
def coordinate (a : Arena) (c : Coordinator) : List Move → Coordinator
  | [] => c
  | move :: rest => (a.step move).coordinate (a.heed c move) rest

variable {a : Arena} {c : Coordinator}

theorem coordinate_append (a : Arena) (c : Coordinator) (before after : List Move) :
    a.coordinate c (before ++ after) =
      (a.play before).coordinate (a.coordinate c before) after := by
  induction before generalizing a c with
  | nil => rfl
  | cons move before ih => exact ih (a.step move) (a.heed c move)

theorem ended_iff : a.ended = true ↔
    (∀ w ∈ a.miners, w.2 = .done) ∧ ∀ stage ∈ a.clients, stage = .done := by
  rw [ended, Bool.and_eq_true, List.all_eq_true, Option.all_eq_true]
  refine and_congr (forall₂_congr fun w _ => ?_) (forall₂_congr fun stage _ => ?_)
  · obtain ⟨_, stage⟩ := w
    cases stage <;> simp
  · cases stage <;> simp

/-- Workers that have ended stay so, and send nothing. -/
theorem step_of_ended (h : a.ended = true) (move : Move) :
    (a.step move).ended = true ∧ (a.step move).shared.events = a.shared.events := by
  obtain ⟨hminers, hclients⟩ := ended_iff.mp h
  cases move with
  | turn worker m =>
    cases worker with
    | miner place =>
      simp only [step, turn]
      cases hp : a.miners[place]? with
      | none => exact ⟨h, rfl⟩
      | some worker =>
        obtain ⟨miner, stage⟩ := worker
        obtain ⟨hlt, he⟩ := List.getElem?_eq_some_iff.mp hp
        have hdone : stage = .done := hminers _ (List.mem_of_getElem? hp)
        subst hdone
        have hset : a.miners.set place (miner, .done) = a.miners := by
          rw [← he, List.set_getElem_self]
        have hstep : miner.step a.participants .done a.shared m = (.done, a.shared) := rfl
        simp only [hstep, hset]
        exact ⟨h, trivial⟩
    | clients =>
      simp only [step, turn]
      cases hc : a.clients with
      | none => exact ⟨h, rfl⟩
      | some stage =>
        have hdone : stage = .done := hclients stage hc
        subst hdone
        have hstep : Client.step a.settings a.participants .done a.shared m = (.done, a.shared) :=
          rfl
        simp only [hstep]
        rw [ended, hc] at h
        exact ⟨h, trivial⟩
    | coordinator =>
      simp only [step, turn]
      split
      · exact ⟨h, rfl⟩
      · exact ⟨h, rfl⟩
  | submit t => exact ⟨h, rfl⟩
  | stop => exact ⟨h, rfl⟩

theorem sound_heed (h : c.Sound a.shared.events a.ended) (move : Move) :
    (a.heed c move).Sound (a.step move).shared.events (a.step move).ended := by
  have hnow : (a.heed c move).Sound a.shared.events a.ended := by
    unfold heed
    split
    · exact h.next
    · exact h
  obtain ⟨new, he, _⟩ := a.sent_cases move
  rw [he]
  refine hnow.later fun hend => ?_
  obtain ⟨hstays, hsame⟩ := step_of_ended hend move
  exact ⟨hstays, List.append_right_eq_self.mp (he.symm.trans hsame)⟩

theorem sound_coordinate (h : c.Sound a.shared.events a.ended) (moves : List Move) :
    (a.coordinate c moves).Sound (a.play moves).shared.events (a.play moves).ended := by
  induction moves generalizing a c with
  | nil => exact h
  | cons move rest ih => exact ih (sound_heed h move)

/-- Once all workers have ended, the coordinator comes to its answer by itself. -/
theorem coordinate_of_ended (h : a.ended = true) (hc : c.Sound a.shared.events true) (m : Moment)
    {turns : Nat} (hturns : c.stepsLeft a.shared.events ≤ turns) :
    a.coordinate c (List.replicate turns (.turn .coordinator m)) =
      .answering (firstError? a.shared.events) := by
  induction turns generalizing a c with
  | zero => exact hc.eq_answering (Nat.le_zero.mp hturns)
  | succ turns ih =>
    obtain ⟨hstays, hsame⟩ := step_of_ended h (.turn .coordinator m)
    have hheed : a.heed c (.turn .coordinator m) = c.next a.shared.events true := by
      rw [heed, h]
    rw [List.replicate_succ, coordinate, hheed, ih hstays, hsame]
    · rw [hsame]
      exact hc.next
    · rw [hsame]
      exact Nat.le_trans c.stepsLeft_next (Nat.sub_le_of_le_add hturns)

end Arena

/-! ## The run -/

namespace Simulator

/-- Everybody who takes part, and the wallets with theirs among them. -/
def enrolled (s : Simulator) (store : Store) (m : Moment) : Participants × WalletBook :=
  Participants.ofSettings s.settings (restoreWallets store) m

/-- What the workers of a run begin with. -/
def opened (s : Simulator) (store : Store) (m : Moment) : Arena :=
  .start s.settings (s.enrolled store m).1 (s.restore store).ledger s.stopped m

/-- Workers are only set to work on valid settings, and below the target. -/
def mines (s : Simulator) (store : Store) : Bool :=
  s.settings.validate.isOk && (s.restore store).ledger.size < s.settings.chainSize.toNat

variable {s : Simulator} {store : Store}

/-- Only the ledger is restored. -/
theorem restore_eq_with (s : Simulator) (store : Store) :
    ∃ l, s.restore store = { s with ledger := l } := by
  unfold restore
  dsimp only
  split
  · split <;> exact ⟨_, rfl⟩
  · exact ⟨_, rfl⟩

/-- The simulator after its workers have come to this. -/
def after (s : Simulator) (a : Arena) : Simulator :=
  { s with ledger := a.shared.ledger, stopped := true }

/-- A run whose workers are set to work. -/
theorem run_of_mines (work : Arena → Id Arena) (m : Moment) (h : s.mines store = true) :
    let a := work (s.opened store m)
    s.run work store m = match a.failure with
      | some e => ⟨.error e, s.after a, store⟩
      | none => ⟨Report.ofLedger a.shared.ledger (s.enrolled store m).1, s.after a,
          (s.after a).save (s.enrolled store m).2 store⟩ := by
  obtain ⟨l, hl⟩ := s.restore_eq_with store
  rw [mines, hl, Bool.and_eq_true, decide_eq_true_eq] at h
  obtain ⟨hvalid, hbelow⟩ := h
  cases hv : s.settings.validate with
  | error e =>
    rw [hv] at hvalid
    cases hvalid
  | ok _ =>
    intro a
    have ha : a = work (.start s.settings (s.enrolled store m).1 l s.stopped m) := by
      simp only [a, opened, hl]
    rw [run, hv]
    dsimp only [runValid]
    rw [hl]
    dsimp only
    rw [if_neg (Nat.not_le.mpr hbelow), ha]
    rfl

/-- A run that has nothing to mine. -/
theorem run_of_not_mines (work : Arena → Id Arena) (m : Moment) (h : s.mines store = false) :
    (s.settings.validate.isOk = false ∧ (s.run work store m).store = store) ∨
    (s.settings.validate.isOk = true ∧ (s.run work store m).store =
      (s.run work store m).simulator.save (s.enrolled store m).2 store) := by
  obtain ⟨l, hl⟩ := s.restore_eq_with store
  cases hv : s.settings.validate with
  | error e =>
    left
    rw [run, hv]
    exact ⟨rfl, rfl⟩
  | ok _ =>
    right
    rw [mines, hl, hv] at h
    have hreached : s.settings.chainSize.toNat ≤ l.size := by
      simpa [Except.isOk, Except.toBool] using h
    rw [run, hv]
    dsimp only [runValid]
    rw [hl]
    dsimp only
    rw [if_pos hreached]
    exact ⟨rfl, rfl⟩

/-- What becomes of errors. Whatever workers there are, whatever they have sent and however turns
fall, the coordinator answers only when all have ended, and then with the first error that was sent,
or with none if there was none; and once they have ended, it does come to its answer. And whatever
the workers of a run have sent in the end: if there is an error, the run returns the first one and
leaves the store as it was; without any, a run on valid settings saves. -/
theorem fatal_never_saved (s : Simulator) (store : Store) (m : Moment) :
    (∀ (a : Arena) (moves : List Arena.Move),
      let sent := a.shared.events ++ (a.log moves).map Prod.fst
      let last := a.play moves
      last.failure = firstError? sent ∧
      (∀ answer, a.coordinate .receiving moves = .answering answer →
        last.ended = true ∧ answer = firstError? sent) ∧
      (last.ended = true → ∀ now turns, sent.length + 3 ≤ turns →
        a.coordinate .receiving (moves ++ List.replicate turns (.turn .coordinator now)) =
          .answering (firstError? sent))) ∧
    ∀ work : Arena → Id Arena,
      let sent := if s.mines store then (work (s.opened store m)).shared.events else []
      let ending := s.run work store m
      (∀ e, firstError? sent = some e → ending.result = .error e ∧ ending.store = store) ∧
      (firstError? sent = none → ending.store =
        if s.settings.validate.isOk then ending.simulator.save (s.enrolled store m).2 store
        else store) := by
  refine ⟨fun a moves => ?_, fun work => ?_⟩
  · intro sent last
    have hsent : last.shared.events = sent := a.events_play moves
    have hsound := Arena.sound_coordinate (a := a) (c := .receiving) trivial moves
    refine ⟨?_, fun answer ha => ?_, fun hend now turns hturns => ?_⟩
    · rw [Arena.failure, Arena.drain_eq, hsent]
    · rw [ha] at hsound
      exact ⟨hsound.1, hsent ▸ hsound.2⟩
    · rw [Arena.coordinate_append, ← hsent]
      have hleft := (a.coordinate .receiving moves).stepsLeft_le sent
      exact Arena.coordinate_of_ended hend (hend ▸ hsound) now
        (hsent ▸ Nat.le_trans hleft hturns)
  · intro sent ending
    cases hm : s.mines store with
    | true =>
      have hsent : sent = (work (s.opened store m)).shared.events := if_pos hm
      have hvalid : s.settings.validate.isOk = true := (Bool.and_eq_true _ _ ▸ hm).1
      have hending := run_of_mines work m hm
      dsimp only at hending
      rw [Arena.failure, Arena.drain_eq, ← hsent] at hending
      refine ⟨fun e he => ?_, fun hnone => ?_⟩
      · rw [he] at hending
        exact ⟨congrArg Ending.result hending, congrArg Ending.store hending⟩
      · rw [hnone] at hending
        rw [if_pos hvalid]
        simp only [ending, hending]
    | false =>
      have hsent : sent = [] := if_neg (by rw [hm]; exact Bool.false_ne_true)
      refine ⟨fun e he => ?_, fun _ => ?_⟩
      · rw [hsent] at he
        cases he
      · rcases run_of_not_mines work m hm with ⟨hv, hs⟩ | ⟨hv, hs⟩
        · rw [hv]
          exact hs
        · rw [hv]
          exact hs

/-! ### A run in trouble

Three miners for two blocks. The first wins a block, the second wins the last one and announces the
height, and the third has a candidate in hand all the while. When everybody is told to stop, the
first has tried to pay with a wallet that cannot sign, and the third is about to read a clock that
was set back. If neither goes wrong, the run is saved. -/

namespace Troubled

open Arena (Move blank finds handsIn lucky withFirst withSecond)

def settings : Settings := { Settings.defaults with miners := 3, clients := 0, chainSize := 2 }

/-- Another wallet that cannot sign. -/
def other : Wallet := ⟨[], [0]⟩

def wallets : WalletBook :=
  .ofEntries [("Miner 0", blank), ("Miner 1", blank), ("Miner 2", other)]

/-- What was saved before, with no chain in it. -/
def kept : Store := Store.empty.saveWallets wallets

def simulator : Simulator := ofLedger settings (.withDifficulty 2)

def participants : Participants :=
  ⟨[⟨"Miner 0", blank⟩, ⟨"Miner 1", blank⟩, ⟨"Miner 2", other⟩], []⟩

def payer : Miner := ⟨0, ⟨"Miner 0", blank⟩, 2⟩

def arena (l : Ledger) (stopped : Bool) (events : List Event) (s₀ s₁ s₂ : Miner.Stage) : Arena where
  settings := settings
  participants := participants
  shared := ⟨l, stopped, events⟩
  miners :=
    [(payer, s₀), (⟨1, ⟨"Miner 1", blank⟩, 2⟩, s₁), (⟨2, ⟨"Miner 2", other⟩, 2⟩, s₂)]
  clients := none

theorem enrolled_kept (m : Moment) : simulator.enrolled kept m = (participants, wallets) := by
  have ht : kept.tree .wallets = OrderedMap.ofList (Write.wallets wallets).entries := by
    rw [kept, Store.saveWallets, Store.tree_write]
    exact if_pos rfl
  have hw : restoreWallets kept = wallets := by
    rw [restoreWallets, Store.loadWallets_eq_ok ht (by decide)]
  rw [enrolled, hw]
  rfl

theorem opened_kept (m : Moment) : simulator.opened kept m =
    arena (.withDifficulty 2) false [] .deciding .deciding .deciding := by
  rw [opened, enrolled_kept]
  rfl

theorem mines_kept : simulator.mines kept = true := by
  have hr : simulator.restore kept = simulator := rfl
  rw [mines, hr]
  decide

/-- Draws nothing but zeros, and so pays. -/
def generous (now : Int64) : Moment := ⟨now, ⟨fun _ _ => 0, 0⟩⟩

def turns (place : Nat) (ms : List Moment) : List Move := ms.map (.turn (.miner place))

/-- Up to the last block. -/
def digs : List Move :=
  turns 2 [lucky 1600000000000, lucky 1600000000000] ++
    finds 0 (lucky 1600000000554) ++ handsIn 0 (lucky 1600000000555) ++
    finds 1 (lucky 1600000005781) ++ handsIn 1 (lucky 1600000005782)

/-- The height is announced, and everybody is told to stop. -/
def announces : List Move :=
  turns 1 [lucky 1600000005783, lucky 1600000005783] ++ [.turn .coordinator (lucky 1600000005783)]

/-- The third reads the clock, and all come to their end. -/
def winds (reading : Moment) : List Move :=
  turns 2 [reading, lucky 1600000005784] ++
    turns 0 [lucky 1600000005784, lucky 1600000005784] ++ turns 1 [lucky 1600000005784]

def course (paying reading : Moment) : List Move :=
  digs ++ turns 0 [paying] ++ announces ++ winds reading

/-- The candidate that the third begins and does not finish. -/
def abandoned : Candidate := (Ledger.withDifficulty 2).snapshot.candidate "2" other.address

theorem play_digs :
    (arena (.withDifficulty 2) false [] .deciding .deciding .deciding).play digs =
      arena withSecond false [] (.paying 1) (.paying 2) (.timing abandoned) := by
  have hlate : (arena (.withDifficulty 2) false [] .deciding .deciding .deciding).play
      (turns 2 [lucky 1600000000000, lucky 1600000000000]) =
        arena (.withDifficulty 2) false [] .deciding .deciding (.timing abandoned) := rfl
  have hfound : (arena (.withDifficulty 2) false [] .deciding .deciding (.timing abandoned)).play
      (finds 0 (lucky 1600000000554)) = arena (.withDifficulty 2) false []
        (.submitting (Arena.first "0")) .deciding (.timing abandoned) :=
    Arena.play_finds rfl (by decide) rfl (by decide) (by decide)
      (Arena.attempt?_race (b := Arena.first "0") rfl (Arena.fits_first "0") rfl rfl rfl rfl rfl)
  have hfirst : (arena (.withDifficulty 2) false [] (.submitting (Arena.first "0")) .deciding
      (.timing abandoned)).play (handsIn 0 (lucky 1600000000555)) =
        arena withFirst false [] (.paying 1) .deciding (.timing abandoned) :=
    Arena.play_accepted rfl (by decide) Arena.first_acceptable
  have hnext : (arena withFirst false [] (.paying 1) .deciding (.timing abandoned)).play
      (finds 1 (lucky 1600000005781)) =
        arena withFirst false [] (.paying 1) (.submitting Arena.second) (.timing abandoned) :=
    Arena.play_finds rfl (by decide) rfl (by decide) (by decide)
      (Arena.attempt?_race (b := Arena.second) rfl Arena.fits_second rfl rfl rfl rfl rfl)
  have hsecond : (arena withFirst false [] (.paying 1) (.submitting Arena.second)
      (.timing abandoned)).play (handsIn 1 (lucky 1600000005782)) =
        arena withSecond false [] (.paying 1) (.paying 2) (.timing abandoned) :=
    Arena.play_accepted rfl (by decide) Arena.second_acceptable
  simp only [digs, Arena.play_append]
  rw [hlate, hfound, hfirst, hnext, hsecond]

theorem play_announces (s₀ s₂ : Miner.Stage) :
    (arena withSecond false [] s₀ (.paying 2) s₂).play announces =
      arena withSecond true [.reached 2] s₀ .deciding s₂ := rfl

theorem others_payer : participants.others payer.participant.address = [⟨"Miner 2", other⟩] := by
  have ho : other.address = "1FYMZEHnszCHKTBdFZ2DLrUuk3dGwYKQxh" := by
    simp only [other, Wallet.address, Address.ofPublicKey, Address.ofFingerprint, hash160, checksum,
      sha256_eq]
    decide +kernel
  have hne : (other.address != blank.address) = true := by
    rw [ho, Arena.address_blank]
    rfl
  simp [Participants.others, Participants.all, participants, payer, Participant.address, hne]

theorem pay_generous (l : Ledger) {now : Int64} (hepoch : 0 ≤ now) :
    payer.pay participants l (generous now) = .error .unreadableKey := by
  have hshare : (generous now).below 0 Miner.chanceDenominator < Miner.chanceNumerator :=
    Nat.succ_pos 2
  have hpick : (generous now).pick 2 (participants.others payer.participant.address) =
      some ⟨"Miner 2", other⟩ := by
    rw [others_payer]
    rfl
  have hsign (transfer : Transfer) (time : Int64) (draw : Nat) :
      blank.sign transfer time draw = .error .unreadableKey := rfl
  have hsend (receiver : String) (amount : UInt64) :
      payer.participant.wallet.send l receiver amount (generous now) = .error .unreadableKey := by
    change blank.send l receiver amount (generous now) = _
    rw [Wallet.send, Wallet.pay_of_nonneg hepoch, hsign]
    rfl
  rw [Miner.pay_of_pick hshare hpick, hsend]
  rfl

theorem play_loud (m : Moment) :
    (simulator.opened kept m).play (course (generous 1600000005783) ⟨-1, 0⟩) =
      arena withSecond true [.reached 2, .fatal .clockBeforeEpoch, .fatal .unreadableKey]
        .done .done .done := by
  have hpays : (arena withSecond false [] (.paying 1) (.paying 2) (.timing abandoned)).play
      (turns 0 [generous 1600000005783]) =
        arena withSecond false [] (.failed .unreadableKey) (.paying 2) (.timing abandoned) :=
    (Arena.play_singleton _ _).trans
      (Arena.step_put rfl (Miner.step_of_pay_eq_error (pay_generous _ (by decide))))
  have hends : (arena withSecond true [.reached 2] (.failed .unreadableKey) .deciding
      (.timing abandoned)).play (winds ⟨-1, 0⟩) =
        arena withSecond true [.reached 2, .fatal .clockBeforeEpoch, .fatal .unreadableKey]
          .done .done .done := rfl
  simp only [course, Arena.play_append]
  rw [opened_kept, play_digs, hpays, play_announces, hends]

theorem play_quiet (m : Moment) :
    (simulator.opened kept m).play (course (lucky 1600000005783) (lucky 1600000005783)) =
      arena withSecond true [.reached 2] .done .done .done := by
  have hkeeps : (arena withSecond false [] (.paying 1) (.paying 2) (.timing abandoned)).play
      (turns 0 [lucky 1600000005783]) =
        arena withSecond false [] (.announcing 1) (.paying 2) (.timing abandoned) := rfl
  have hends : (arena withSecond true [.reached 2] (.announcing 1) .deciding
      (.timing abandoned)).play (winds (lucky 1600000005783)) =
        arena withSecond true [.reached 2] .done .done .done := rfl
  simp only [course, Arena.play_append]
  rw [opened_kept, play_digs, hkeeps, play_announces, hends]

end Troubled

open Troubled Arena in
/-- Of two errors behind the announcement, the one that was sent first is returned, and what was
stored before is still there. The same run without them saves its chain. -/
theorem fatal_never_saved_troubled :
    let m := lucky 1600000000000
    let loud (a : Arena) : Id Arena := pure (a.play (course (generous 1600000005783) ⟨-1, 0⟩))
    let quiet (a : Arena) : Id Arena :=
      pure (a.play (course (lucky 1600000005783) (lucky 1600000005783)))
    simulator.mines kept = true ∧
      ((loud (simulator.opened kept m)).ended = true ∧
        (loud (simulator.opened kept m)).shared.events =
          [.reached 2, .fatal .clockBeforeEpoch, .fatal .unreadableKey] ∧
        (simulator.opened kept m).coordinate .receiving
          (course (generous 1600000005783) ⟨-1, 0⟩ ++ List.replicate 6 (.turn .coordinator m)) =
            .answering (some .clockBeforeEpoch) ∧
        (simulator.run loud kept m).result = .error .clockBeforeEpoch ∧
        (simulator.run loud kept m).store = kept) ∧
      (quiet (simulator.opened kept m)).shared.events = [.reached 2] ∧
      (simulator.run quiet kept m).simulator.ledger.chain = [Block.genesis, first "0", second] ∧
      (simulator.run quiet kept m).store =
        (simulator.run quiet kept m).simulator.save wallets kept := by
  intro m loud quiet
  have hloud : loud (simulator.opened kept m) =
      arena withSecond true [.reached 2, .fatal .clockBeforeEpoch, .fatal .unreadableKey]
        .done .done .done := play_loud m
  have hquiet : quiet (simulator.opened kept m) =
      arena withSecond true [.reached 2] .done .done .done := play_quiet m
  have hchain : (simulator.run quiet kept m).simulator.ledger.chain =
      [Block.genesis, first "0", second] := by
    rw [run_of_mines quiet m mines_kept, hquiet]
    rfl
  obtain ⟨hcoordinator, hrun⟩ := fatal_never_saved simulator kept m
  obtain ⟨_, _, hanswers⟩ := hcoordinator (simulator.opened kept m)
    (course (generous 1600000005783) ⟨-1, 0⟩)
  rw [← Arena.events_play, play_loud] at hanswers
  have hanswer := hanswers rfl m 6 (Nat.le_refl 6)
  obtain ⟨hresult, hstore⟩ := (hrun loud).1 .clockBeforeEpoch (by
    rw [if_pos mines_kept, hloud]
    rfl)
  have hsaved := (hrun quiet).2 (by
    rw [if_pos mines_kept, hquiet]
    rfl)
  rw [enrolled_kept] at hsaved
  exact ⟨mines_kept, ⟨by rw [hloud]; rfl, by rw [hloud]; rfl, hanswer, hresult, hstore⟩,
    by rw [hquiet]; rfl, hchain, hsaved⟩

end Simulator

end WorkLedger
