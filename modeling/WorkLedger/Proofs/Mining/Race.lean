import Mathlib.Data.List.DropRight
import Mathlib.Data.List.Nodup
import Mathlib.Data.List.Perm.Subperm
import Mathlib.Logic.Function.Basic
import WorkLedger.Proofs.Ledger.Authenticity
import WorkLedger.Proofs.Mining.Search
import WorkLedger.Proofs.Rules.Backing

/-! Races. Workers look at a shared ledger, search on what they saw and hand in what they find, in
any order, while others submit transactions. A look stays good until a block is accepted: up to then
the chain and the difficulty are the same and the pool has only grown. So a block that was found on
it is refused for one of two reasons, that another block came first or that the clock is behind. -/

namespace WorkLedger

/-! ## Workers around a ledger -/

/-- What a worker has in front of it: its last look at the ledger, and the last block it found. -/
structure Desk where
  snapshot : Ledger.Snapshot
  block : Option Block

/-- One search on what was seen, under any name and address, with any nonces, for as long as the
answer is to go on. -/
def Desk.search (desk : Desk) (minerName address : String) (timestamp : Int64)
    (nonces : Nat → UInt64) (stop : Nat → Bool) (rounds : Nat) : Desk :=
  match (desk.snapshot.candidate minerName address).search timestamp nonces stop rounds 0 with
  | .found block => { desk with block := some block }
  | .stopped _ => desk
  | .unfinished => desk

/-- Some search on this snapshot finds the block. -/
def Ledger.Snapshot.Yields (snapshot : Ledger.Snapshot) (b : Block) : Prop :=
  ∃ minerName address timestamp, (snapshot.candidate minerName address).Makes timestamp b

theorem Ledger.Snapshot.Yields.height {snapshot : Ledger.Snapshot} {b : Block}
    (h : snapshot.Yields b) : b.height = snapshot.last.height + 1 := by
  obtain ⟨minerName, address, timestamp, hm⟩ := h
  obtain ⟨nonce, hash, rfl⟩ := hm.eq_block
  rfl

def Desk.Honest (desk : Desk) : Prop :=
  ∀ block, desk.block = some block → desk.snapshot.Yields block

section

variable (desk : Desk) (minerName address : String) (timestamp : Int64) (nonces : Nat → UInt64)
  (stop : Nat → Bool) (rounds : Nat)

theorem Desk.snapshot_search :
    (desk.search minerName address timestamp nonces stop rounds).snapshot = desk.snapshot := by
  unfold Desk.search
  split <;> rfl

theorem Desk.search_of_attempt {block : Block} (hs : stop 0 = false)
    (h : (desk.snapshot.candidate minerName address).attempt? timestamp (nonces 0) = some block) :
    desk.search minerName address timestamp nonces stop (rounds + 1) =
      { desk with block := some block } := by
  rw [search, Candidate.search_of_attempt hs h]

theorem Desk.Honest.search (h : desk.Honest) :
    (desk.search minerName address timestamp nonces stop rounds).Honest := by
  unfold Desk.search
  cases hs : (desk.snapshot.candidate minerName address).search timestamp nonces stop rounds 0 with
  | found block =>
    intro b hb
    cases hb
    exact ⟨minerName, address, timestamp, Candidate.makes_of_search hs⟩
  | stopped _ => exact h
  | unfinished => exact h

end

/-- Each worker is known by a number. -/
structure Workshop where
  ledger : Ledger
  desks : Nat → Option Desk

namespace Workshop

inductive Turn
  | look (worker : Nat)
  | search (worker : Nat) (minerName address : String) (timestamp : Int64) (nonces : Nat → UInt64)
      (stop : Nat → Bool) (rounds : Nat)
  /-- The block meets a clock reading. It stays where it is, so it may be handed in again. -/
  | handIn (worker : Nat) (now : Int64)
  | submit (t : Transaction)

def Turn.isLookOf (worker : Nat) : Turn → Bool
  | .look other => other == worker
  | _ => false

/-- Up to the last look of a worker, and past it. -/
def untilLook (worker : Nat) (turns : List Turn) : List Turn :=
  turns.rdropWhile fun turn => !turn.isLookOf worker

def sinceLook (worker : Nat) (turns : List Turn) : List Turn :=
  turns.rtakeWhile fun turn => !turn.isLookOf worker

def opened (difficulty : Nat) : Workshop := ⟨.withDifficulty difficulty, fun _ => none⟩

def held (s : Workshop) (worker : Nat) : Option Block := (s.desks worker).bind (·.block)

def place (s : Workshop) (worker : Nat) (desk : Desk) : Workshop :=
  { s with desks := Function.update s.desks worker (some desk) }

theorem place_self (s : Workshop) (worker : Nat) (desk : Desk) :
    (s.place worker desk).desks worker = some desk := Function.update_self ..

theorem place_of_ne (s : Workshop) {worker other : Nat} (desk : Desk) (h : other ≠ worker) :
    (s.place worker desk).desks other = s.desks other := Function.update_of_ne h ..

def call (s : Workshop) (c : Ledger.Call) : Workshop := { s with ledger := s.ledger.perform c }

def step (s : Workshop) : Turn → Workshop
  | .look worker => s.place worker ⟨s.ledger.snapshot, none⟩
  | .search worker minerName address timestamp nonces stop rounds =>
    match s.desks worker with
    | some desk =>
      s.place worker (desk.search minerName address timestamp nonces stop rounds)
    | none => s
  | .handIn worker now =>
    match s.held worker with
    | some block => s.call (.append block now)
    | none => s
  | .submit t => s.call (.submit t)

def run (s : Workshop) (turns : List Turn) : Workshop := turns.foldl step s

/-- The block that a turn puts on the chain, with what its worker had seen. -/
def accepts (s : Workshop) : Turn → List (Ledger.Snapshot × Block)
  | .handIn worker now =>
    match s.desks worker with
    | some ⟨snapshot, some block⟩ =>
      if s.ledger.takes (.append block now) then [(snapshot, block)] else []
    | _ => []
  | _ => []

def accepted (s : Workshop) : List Turn → List (Ledger.Snapshot × Block)
  | [] => []
  | turn :: rest => s.accepts turn ++ (s.step turn).accepted rest

theorem run_append (s : Workshop) (before after : List Turn) :
    s.run (before ++ after) = (s.run before).run after := List.foldl_append

theorem accepted_append (s : Workshop) (before after : List Turn) :
    s.accepted (before ++ after) = s.accepted before ++ (s.run before).accepted after := by
  induction before generalizing s with
  | nil => rfl
  | cons turn before ih => rw [List.cons_append, accepted, ih, accepted, List.append_assoc]; rfl

end Workshop

namespace Ledger

/-! ## What a look still tells -/

/-- The height of the last block counts the blocks before it. -/
def Numbered (l : Ledger) : Prop := l.last.height = UInt32.ofNat l.size

/-- The ledger has come from `seen` by accepting `count` blocks. With none, it only took in
transactions. -/
structure GrownFrom (seen l : Ledger) (count : Nat) : Prop where
  size_eq : l.size = seen.size + count
  chain_eq : count = 0 → l.chain = seen.chain
  difficulty_eq : count = 0 → l.difficulty = seen.difficulty
  pool_prefix : count = 0 → seen.pool <+: l.pool

variable {seen l : Ledger} {count : Nat}

theorem GrownFrom.refl (l : Ledger) : l.GrownFrom l 0 :=
  ⟨rfl, fun _ => rfl, fun _ => rfl, fun _ => List.prefix_rfl⟩

theorem GrownFrom.enqueue (h : seen.GrownFrom l count) (t : Transaction) :
    seen.GrownFrom (l.enqueue t) count where
  size_eq := h.size_eq
  chain_eq := h.chain_eq
  difficulty_eq := h.difficulty_eq
  pool_prefix := fun hc => (h.pool_prefix hc).trans (List.prefix_append _ _)

theorem GrownFrom.extend (h : seen.GrownFrom l count) (b : Block) :
    seen.GrownFrom (l.extend b) (count + 1) where
  size_eq := by rw [size_extend, h.size_eq, Nat.add_assoc]
  chain_eq := fun hc => absurd hc (Nat.succ_ne_zero count)
  difficulty_eq := fun hc => absurd hc (Nat.succ_ne_zero count)
  pool_prefix := fun hc => absurd hc (Nat.succ_ne_zero count)

theorem Numbered.extend {b : Block} {now : Int64} (h : l.Acceptable b now) :
    (l.extend b).Numbered := by
  rw [Numbered, last_extend, size_extend, ← length_chain, h.next]

theorem GrownFrom.last_eq (h : seen.GrownFrom l 0) : l.last = seen.last :=
  last_congr (h.chain_eq rfl)

/-- A block found on a snapshot stands at the next height exactly as long as no block was accepted
since. -/
theorem GrownFrom.height_eq_iff (h : seen.GrownFrom l count) (hn : seen.Numbered)
    (hz : l.size < UInt32.size) {b : Block} (hb : seen.snapshot.Yields b) :
    b.height = UInt32.ofNat l.chain.length ↔ count = 0 := by
  have hu : UInt32.size = 4294967296 := rfl
  have hs := h.size_eq
  have hh : b.height = UInt32.ofNat (seen.size + 1) := by
    rw [hb.height, UInt32.ofNat_add, ← hn]
    rfl
  rw [hh, length_chain, ← UInt32.toNat_inj, UInt32.toNat_ofNat', UInt32.toNat_ofNat']
  omega

theorem GrownFrom.acceptable (h : seen.GrownFrom l 0) (hn : seen.Numbered)
    (hz : l.size < UInt32.size) {b : Block} {now : Int64} (hb : seen.snapshot.Yields b)
    (ht : b.timestamp < now) : l.Acceptable b now := by
  have hnext := (h.height_eq_iff hn hz hb).mpr rfl
  obtain ⟨minerName, address, timestamp, hm⟩ := hb
  have hf : Acceptance.Fits b seen.last seen.difficulty.zeros := hm.fits
  obtain ⟨nonce, hash, rfl⟩ := hm.eq_block
  refine ⟨hnext, ht, ?_, rfl, ?_⟩
  · rw [h.last_eq, h.difficulty_eq rfl]
    exact hf
  · -- All that was pending then is pending now.
    exact Acceptance.backedBy_iff.mpr ((h.pool_prefix rfl).sublist.map _).subperm

/-- The verdict on a block that was found on a snapshot, when `count` blocks were accepted since. -/
theorem GrownFrom.append_eq (h : seen.GrownFrom l count) (hn : seen.Numbered)
    (hz : l.size < UInt32.size) {b : Block} (hb : seen.snapshot.Yields b) (now : Int64) :
    l.append b now =
      if count = 0 then
        if b.timestamp < now then .ok (l.extend b) else .error (.futureTimestamp b.timestamp now)
      else .error (.wrongHeight (UInt32.ofNat l.chain.length) b.height) := by
  have hh := h.height_eq_iff hn hz hb
  by_cases hc : count = 0
  · subst hc
    rw [if_pos rfl]
    by_cases ht : b.timestamp < now
    · rw [if_pos ht]
      exact append_eq_ok_iff.mpr ⟨h.acceptable hn hz hb ht, rfl⟩
    · rw [if_neg ht]
      exact append_of_now_le (hh.mpr rfl) (Int64.not_lt.mp ht)
  · rw [if_neg hc]
    exact append_of_height_ne (mt hh.mp hc)

end Ledger

namespace Workshop

open Ledger (GrownFrom Numbered)

/-! ## Turns -/

variable {s : Workshop} {turn : Turn} {turns : List Turn} {worker : Nat}

/-- What a turn does to the ledger: nothing, one more pending transaction, or one block that some
worker had found. -/
theorem step_cases (s : Workshop) (turn : Turn) :
    (s.accepts turn = [] ∧ (s.step turn).ledger = s.ledger) ∨
    (s.accepts turn = [] ∧ ∃ t, (s.step turn).ledger = s.ledger.enqueue t) ∨
    (∃ worker snapshot block now, s.accepts turn = [(snapshot, block)] ∧
      s.desks worker = some ⟨snapshot, some block⟩ ∧ s.ledger.Acceptable block now ∧
      (s.step turn).ledger = s.ledger.extend block) := by
  cases turn with
  | look worker => exact .inl ⟨rfl, rfl⟩
  | search worker minerName address timestamp nonces stop rounds =>
    refine .inl ⟨rfl, ?_⟩
    rw [step]
    cases s.desks worker with
    | none => rfl
    | some desk => rfl
  | submit t =>
    rcases s.ledger.perform_cases (.submit t) with ⟨_, hp⟩ | ⟨t, _, _, _, hp⟩ | ⟨_, _, he, _⟩
    · exact .inl ⟨rfl, hp⟩
    · exact .inr (.inl ⟨rfl, t, hp⟩)
    · cases he
  | handIn worker now =>
    rw [accepts, step, held]
    rcases hd : s.desks worker with _ | ⟨snapshot, _ | block⟩
    · exact .inl ⟨rfl, rfl⟩
    · exact .inl ⟨rfl, rfl⟩
    · dsimp only [Option.bind_some]
      rcases s.ledger.perform_cases (.append block now) with
        ⟨ht, hp⟩ | ⟨_, he, _⟩ | ⟨_, _, he, ht, ha, hp⟩
      · rw [ht, if_neg Bool.false_ne_true]
        exact .inl ⟨rfl, hp⟩
      · cases he
      · cases he
        rw [ht, if_pos rfl]
        exact .inr (.inr ⟨worker, snapshot, block, now, rfl, hd, ha, hp⟩)

theorem snapshot_step (h : turn.isLookOf worker = false) :
    ((s.step turn).desks worker).map (·.snapshot) = (s.desks worker).map (·.snapshot) := by
  cases turn with
  | look other =>
    have hne : worker ≠ other := fun he => by simp [Turn.isLookOf, he] at h
    rw [step, s.place_of_ne _ hne]
  | search other minerName address timestamp nonces stop rounds =>
    rw [step]
    cases hd : s.desks other with
    | none => rfl
    | some desk =>
      dsimp only
      by_cases he : worker = other
      · rw [he, place_self, hd, Option.map_some, Option.map_some, Desk.snapshot_search]
      · rw [s.place_of_ne _ he]
  | handIn other now =>
    rw [step]
    cases s.held other with
    | none => rfl
    | some block => rfl
  | submit t => rfl

def Honest (s : Workshop) : Prop := ∀ worker desk, s.desks worker = some desk → desk.Honest

theorem Honest.place (h : s.Honest) {desk : Desk} (hd : desk.Honest) :
    (s.place worker desk).Honest := by
  intro other d he
  by_cases ho : other = worker
  · rw [ho, place_self] at he
    cases he
    exact hd
  · rw [s.place_of_ne _ ho] at he
    exact h other d he

theorem Honest.step (h : s.Honest) (turn : Turn) : (s.step turn).Honest := by
  cases turn with
  | look worker => exact h.place fun _ hb => by cases hb
  | search worker minerName address timestamp nonces stop rounds =>
    rw [Workshop.step]
    cases hd : s.desks worker with
    | none => exact h
    | some desk => exact h.place (Desk.Honest.search _ _ _ _ _ _ _ (h worker desk hd))
  | handIn worker now =>
    rw [Workshop.step]
    cases s.held worker with
    | none => exact h
    | some block => exact h
  | submit t => exact h

/-! ## Runs -/

theorem numbered_opened (difficulty : Nat) : (opened difficulty).ledger.Numbered := rfl

theorem honest_opened (difficulty : Nat) : (opened difficulty).Honest :=
  fun _ _ h => by cases h

theorem Honest.run (h : s.Honest) (turns : List Turn) : (s.run turns).Honest := by
  induction turns generalizing s with
  | nil => exact h
  | cons turn rest ih => exact ih (h.step turn)

theorem numbered_step (h : s.ledger.Numbered) (turn : Turn) : (s.step turn).ledger.Numbered := by
  rcases s.step_cases turn with ⟨_, hl⟩ | ⟨_, t, hl⟩ | ⟨_, _, b, _, _, _, ha, hl⟩
  · rw [hl]
    exact h
  · rw [hl]
    exact h
  · rw [hl]
    exact Numbered.extend ha

theorem numbered_run (h : s.ledger.Numbered) (turns : List Turn) :
    (s.run turns).ledger.Numbered := by
  induction turns generalizing s with
  | nil => exact h
  | cons turn rest ih => exact ih (numbered_step h turn)

theorem grownFrom_step {seen : Ledger} {count : Nat} (h : seen.GrownFrom s.ledger count)
    (turn : Turn) : seen.GrownFrom (s.step turn).ledger (count + (s.accepts turn).length) := by
  rcases s.step_cases turn with ⟨he, hl⟩ | ⟨he, t, hl⟩ | ⟨_, _, b, _, he, _, _, hl⟩
  · rw [he, hl]
    exact h
  · rw [he, hl]
    exact h.enqueue t
  · rw [he, hl]
    exact h.extend b

theorem grownFrom_run {seen : Ledger} {count : Nat} (h : seen.GrownFrom s.ledger count)
    (turns : List Turn) :
    seen.GrownFrom (s.run turns).ledger (count + (s.accepted turns).length) := by
  induction turns generalizing s count with
  | nil => exact h
  | cons turn rest ih =>
    rw [accepted, List.length_append, ← Nat.add_assoc]
    exact ih (grownFrom_step h turn)

theorem snapshot_run (h : ∀ turn ∈ turns, turn.isLookOf worker = false) :
    ((s.run turns).desks worker).map (·.snapshot) = (s.desks worker).map (·.snapshot) := by
  induction turns generalizing s with
  | nil => rfl
  | cons turn rest ih =>
    rw [run, List.foldl_cons, ← run, ih fun t ht => h t (List.mem_cons_of_mem _ ht),
      snapshot_step (h turn List.mem_cons_self)]

/-- Each accepted block was found on a snapshot that ends where the chain ended: the snapshots are
numbered one after the other. -/
theorem heights_accepted (hs : s.Honest) (hn : s.ledger.Numbered) (turns : List Turn) :
    (s.accepted turns).map (·.1.last.height) =
      (List.range' s.ledger.size (s.accepted turns).length).map UInt32.ofNat := by
  induction turns generalizing s with
  | nil => rfl
  | cons turn rest ih =>
    have hr := ih (hs.step turn) (numbered_step hn turn)
    rw [accepted]
    rcases s.step_cases turn with ⟨he, hl⟩ | ⟨he, t, hl⟩ | ⟨w, seen, b, now, he, hd, ha, hl⟩
    · rw [he, List.nil_append, hr, hl]
    · rw [he, List.nil_append, hr, hl]
      rfl
    · have hh : seen.last.height = UInt32.ofNat s.ledger.size := by
        have hb := (hs w _ hd b rfl).height
        rw [ha.next, Ledger.length_chain, UInt32.ofNat_add] at hb
        exact (UInt32.add_left_inj 1).mp hb.symm
      rw [he, List.singleton_append, List.map_cons, hr, hl, Ledger.size_extend, List.length_cons,
        List.range'_succ, List.map_cons, hh]

theorem size_run (difficulty : Nat) (turns : List Turn) :
    ((opened difficulty).run turns).ledger.size = ((opened difficulty).accepted turns).length := by
  have h := (grownFrom_run (GrownFrom.refl (opened difficulty).ledger) turns).size_eq
  rw [h, Nat.zero_add]
  exact Nat.zero_add _

/-- No two accepted blocks were found on snapshots with one last block. -/
theorem nodup_accepted {difficulty : Nat} {turns : List Turn}
    (hz : ((opened difficulty).run turns).ledger.size < UInt32.size) :
    (((opened difficulty).accepted turns).map (·.1.last)).Nodup := by
  have hh := heights_accepted (honest_opened difficulty) (numbered_opened difficulty) turns
  have hn : (((opened difficulty).accepted turns).map (·.1.last.height)).Nodup := by
    rw [hh, ← size_run]
    refine List.Nodup.map_on (fun i hi j hj he => ?_) List.nodup_range'
    have hz : (opened difficulty).ledger.size = 0 := rfl
    rw [List.mem_range'_1, hz] at hi hj
    rw [← UInt32.toNat_inj, UInt32.toNat_ofNat_of_lt' (by omega),
      UInt32.toNat_ofNat_of_lt' (by omega)] at he
    exact he
  refine List.Nodup.of_map Block.height ?_
  rw [List.map_map]
  exact hn

/-- The last turn of what goes before `sinceLook` is the look itself. -/
theorem untilLook_eq (h : untilLook worker turns ≠ []) :
    ∃ before, untilLook worker turns = before ++ [.look worker] := by
  have hlast := List.rdropWhile_last_not _ turns h
  rw [Bool.not_eq_true, Bool.not_eq_false'] at hlast
  change ((untilLook worker turns).getLast h).isLookOf worker = true at hlast
  have hl : (untilLook worker turns).getLast h = .look worker := by
    revert hlast
    cases (untilLook worker turns).getLast h with
    | look other =>
      intro he
      rw [Turn.isLookOf, beq_iff_eq] at he
      rw [he]
    | search | handIn | submit =>
      intro he
      cases he
  exact ⟨_, by rw [← hl, List.dropLast_append_getLast]⟩

/-- What a worker has in front of it is the ledger as it stood at its last look. -/
theorem desk_run {difficulty : Nat} {desk : Desk}
    (h : ((opened difficulty).run turns).desks worker = some desk) :
    desk.snapshot = ((opened difficulty).run (untilLook worker turns)).ledger.snapshot := by
  have hsince : ∀ turn ∈ sinceLook worker turns, turn.isLookOf worker = false := fun turn ht => by
    simpa using List.mem_rtakeWhile_imp ht
  have hsplit : untilLook worker turns ++ sinceLook worker turns = turns :=
    List.rdropWhile_append_rtakeWhile ..
  have hd := snapshot_run (s := (opened difficulty).run (untilLook worker turns)) hsince
  rw [← run_append, hsplit, h] at hd
  by_cases hu : untilLook worker turns = []
  · -- Without a look there is no desk.
    rw [hu] at hd
    cases hd
  · obtain ⟨before, hb⟩ := untilLook_eq hu
    rw [hb, run_append] at hd ⊢
    have hp := ((opened difficulty).run before).place_self worker
      ⟨((opened difficulty).run before).ledger.snapshot, none⟩
    have hl : (((opened difficulty).run before).run [.look worker]).desks worker =
      some ⟨((opened difficulty).run before).ledger.snapshot, none⟩ := hp
    rw [hl] at hd
    exact Option.some.inj hd

/-- A block that was found on a look and is handed in meets one of three verdicts. When a block was
accepted since the look, it stands at the wrong height. Else it is accepted or, when the clock has
not passed its timestamp, too early. And of the blocks that were found on one look, or on looks at
one last block, no two are ever accepted. -/
theorem handIn_verdicts (difficulty : Nat) (turns : List Turn)
    (hz : ((opened difficulty).run turns).ledger.size < UInt32.size) :
    let s := (opened difficulty).run turns
    (∀ worker block, s.held worker = some block → ∀ now,
      let seen := (opened difficulty).run (untilLook worker turns)
      s.ledger.append block now =
        if seen.accepted (sinceLook worker turns) = [] then
          if block.timestamp < now then .ok (s.ledger.extend block)
          else .error (.futureTimestamp block.timestamp now)
        else .error (.wrongHeight (UInt32.ofNat s.ledger.chain.length) block.height)) ∧
    (((opened difficulty).accepted turns).map (·.1.last)).Nodup := by
  refine ⟨fun worker block hb now => ?_, nodup_accepted hz⟩
  obtain ⟨desk, hd, hb⟩ := Option.bind_eq_some_iff.mp hb
  have hy : desk.snapshot.Yields block :=
    (honest_opened difficulty).run turns worker desk hd block hb
  rw [desk_run hd] at hy
  have hn := numbered_run (numbered_opened difficulty) (untilLook worker turns)
  have hg := grownFrom_run
    (GrownFrom.refl ((opened difficulty).run (untilLook worker turns)).ledger)
    (sinceLook worker turns)
  rw [← run_append, untilLook, sinceLook, List.rdropWhile_append_rtakeWhile, Nat.zero_add] at hg
  rw [hg.append_eq hn hz hy now]
  simp only [List.length_eq_zero_iff]
  rfl

/-! Two workers look at the opened ledger, and both find a block. -/

section

open Ledger.KeySwap

/-- What the second worker finds: the same header, under another name. -/
def late : Block := { funding with minerName := "Miner 1" }

def strike (worker : Nat) (minerName : String) : Turn :=
  .search worker minerName "1PCdcx5Yf8mf4Y4xidgdE5idZaprqBt6BW" 1500000001000 (fun _ => 248)
    (fun _ => false) 1

/-- Both look, both find a block, and the first one hands it in. -/
def race : List Turn :=
  [.look 0, .look 1] ++ ([strike 0 "Miner 0", strike 1 "Miner 1"] ++ [.handIn 0 1600000000000])

def looked : Workshop :=
  ((opened 2).place 0 ⟨(Ledger.withDifficulty 2).snapshot, none⟩).place 1
    ⟨(Ledger.withDifficulty 2).snapshot, none⟩

def struck : Workshop :=
  (looked.place 0 ⟨(Ledger.withDifficulty 2).snapshot, some funding⟩).place 1
    ⟨(Ledger.withDifficulty 2).snapshot, some late⟩

theorem attempt?_strike (minerName : String) :
    ((Ledger.withDifficulty 2).snapshot.candidate minerName
      "1PCdcx5Yf8mf4Y4xidgdE5idZaprqBt6BW").attempt? 1500000001000 248 =
        some { funding with minerName := minerName } :=
  have h := funding_acceptable.fits
  Candidate.attempt?_of_fits (b := { funding with minerName := minerName })
    ⟨h.linked, h.worked, h.digested, h.hashed⟩ rfl rfl

theorem step_strike {minerName : String}
    (hd : s.desks worker = some ⟨(Ledger.withDifficulty 2).snapshot, none⟩) :
    s.step (strike worker minerName) = s.place worker
      ⟨(Ledger.withDifficulty 2).snapshot, some { funding with minerName := minerName }⟩ := by
  rw [strike, step, hd]
  exact congrArg (s.place worker) (Desk.search_of_attempt ⟨_, none⟩ minerName _ _ (fun _ => 248)
    (fun _ => false) 0 rfl (attempt?_strike minerName))

theorem run_looks : (opened 2).run [.look 0, .look 1] = looked := rfl

theorem run_strikes : looked.run [strike 0 "Miner 0", strike 1 "Miner 1"] = struck := by
  have h0 : looked.step (strike 0 "Miner 0") =
      looked.place 0 ⟨(Ledger.withDifficulty 2).snapshot, some funding⟩ :=
    step_strike ((place_of_ne _ _ Nat.zero_ne_one).trans (place_self ..))
  have h1 : (looked.place 0 ⟨(Ledger.withDifficulty 2).snapshot, some funding⟩).step
      (strike 1 "Miner 1") = struck :=
    step_strike ((place_of_ne _ _ Nat.one_ne_zero).trans (place_self ..))
  rw [run, List.foldl_cons, h0, List.foldl_cons, h1, List.foldl_nil]

theorem desk_struck : struck.desks 0 =
    some ⟨(Ledger.withDifficulty 2).snapshot, some funding⟩ :=
  (place_of_ne _ _ Nat.zero_ne_one).trans (place_self ..)

theorem run_race : (opened 2).run race = { struck with ledger := funded } := by
  have hl : struck.ledger = .withDifficulty 2 := rfl
  rw [race, run_append, run_looks, run_append, run_strikes, run, List.foldl_cons, List.foldl_nil,
    step, held, desk_struck]
  dsimp only [Option.bind_some]
  rw [call, hl, perform_funding]

theorem accepted_race : ((opened 2).run (untilLook 1 race)).accepted (sinceLook 1 race) =
    [((Ledger.withDifficulty 2).snapshot, funding)] := by
  have hu : untilLook 1 race = [.look 0, .look 1] := rfl
  have hs : sinceLook 1 race =
    [strike 0 "Miner 0", strike 1 "Miner 1"] ++ [.handIn 0 1600000000000] := rfl
  have hl : struck.ledger = .withDifficulty 2 := rfl
  have hn : looked.accepted [strike 0 "Miner 0", strike 1 "Miner 1"] = [] := rfl
  rw [hu, hs, run_looks, accepted_append, run_strikes, hn, List.nil_append, accepted, accepts,
    desk_struck]
  dsimp only
  rw [hl, (Ledger.perform_append funding_acceptable).1, if_pos rfl, accepted, List.append_nil]

/-- The first worker wins: the block of the second is no longer the next one. -/
theorem handIn_verdicts_race :
    ((opened 2).run race).ledger.size < UInt32.size ∧ ((opened 2).run race).held 1 = some late ∧
      ((opened 2).run race).ledger.append late 1600000000000 = .error (.wrongHeight 2 1) := by
  have hz : ((opened 2).run race).ledger.size < UInt32.size := by
    rw [run_race]
    decide
  have hb : ((opened 2).run race).held 1 = some late := by
    rw [run_race]
    rfl
  have hv := (handIn_verdicts 2 race hz).1 1 late hb 1600000000000
  dsimp only at hv
  rw [accepted_race, if_neg (List.cons_ne_nil _ _)] at hv
  refine ⟨hz, hb, hv.trans ?_⟩
  rw [run_race]
  rfl

end

end Workshop

end WorkLedger
