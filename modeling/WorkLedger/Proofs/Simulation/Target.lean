import Mathlib.Data.List.Nodup
import WorkLedger.Proofs.Ledger.Run
import WorkLedger.Proofs.Mining.Search
import WorkLedger.Simulation.Arena

/-! The end of a run. Miners with one target look at the ledger at one time and hand in their block
at another, and blocks of others come between. The target holds all the same: nobody begins a block
above it, and a block is only accepted at its own height. Each height is won once, so no more than
one miner has the target to announce. -/

namespace WorkLedger

/-! ## Payments -/

section Payments

variable {ps : Participants} {l l' : Ledger} {m : Moment}

theorem Wallet.pay_of_nonneg {w : Wallet} {receiver : String} {amount : UInt64} (h : 0 ≤ m.now) :
    w.pay receiver amount m = w.sign ⟨w.address, receiver, amount⟩ m.now (m.draw 3) := by
  rw [Wallet.pay, Moment.time_of_nonneg h]
  rfl

/-- A payment may reach the pool, but never the chain. -/
theorem Wallet.chain_of_send {w : Wallet} {receiver : String} {amount : UInt64}
    {paid : Bool × Ledger} (h : w.send l receiver amount m = .ok paid) :
    paid.2.chain = l.chain := by
  unfold Wallet.send at h
  obtain ⟨t, _, ht⟩ := exists_of_bind_eq_ok h
  cases hs : l.submit t with
  | error rejection =>
    rw [hs] at ht
    cases ht
    rfl
  | ok taken =>
    rw [hs] at ht
    cases ht
    obtain ⟨_, he⟩ := Ledger.submit_eq_ok_iff.mp hs
    rw [he]
    rfl

/-- A miner that is to share pays the participant that is drawn. -/
theorem Miner.pay_of_pick {miner : Miner} {receiver : Participant}
    (hshare : m.below 0 chanceDenominator < chanceNumerator)
    (hpick : m.pick 2 (ps.others miner.participant.address) = some receiver) :
    miner.pay ps l m = (miner.participant.wallet.send l receiver.address
      (UInt64.ofNat (m.below 1 (greatestPayment + 1))) m).map Prod.snd := by
  rw [pay, if_neg (Nat.not_le.mpr hshare)]
  simp only [hpick]

theorem Miner.chain_of_pay {miner : Miner} (h : miner.pay ps l m = .ok l') :
    l'.chain = l.chain := by
  unfold Miner.pay at h
  split at h
  · cases h
    rfl
  · cases hp : m.pick 2 (ps.others miner.participant.address) with
    | none =>
      simp only [hp] at h
      cases h
      rfl
    | some receiver =>
      simp only [hp] at h
      generalize hs : miner.participant.wallet.send l receiver.address _ m = outcome at h
      cases outcome with
      | error e => cases h
      | ok paid =>
        cases h
        exact Wallet.chain_of_send hs

theorem Client.chain_of_tick {paid : Bool × Ledger} (h : tick ps l m = .ok paid) :
    paid.2.chain = l.chain := by
  unfold tick at h
  cases hp : m.pick 0 ps.clients with
  | none =>
    rw [hp] at h
    cases h
    rfl
  | some sender =>
    rw [hp] at h
    obtain ⟨balance, _, hb⟩ := exists_of_bind_eq_ok h
    split at hb
    · cases hb
      rfl
    · split at hb
      · cases hb
        rfl
      · exact Wallet.chain_of_send hb

end Payments

/-- A block that is accepted stands at its own height; the counter of heights does not begin
again, if the block is not at height zero. -/
theorem Ledger.Acceptable.toNat_height_of_ne_zero {l : Ledger} {block : Block} {now : Int64}
    (hb : l.Acceptable block now) (hsize : l.size < UInt32.size) (hz : block.height ≠ 0) :
    block.height.toNat = l.size + 1 := by
  have hne : block.height.toNat ≠ 0 := fun he => hz (UInt32.toNat_inj.mp he)
  have hu : UInt32.size = 4294967296 := rfl
  have hn : block.height.toNat = (l.size + 1) % 4294967296 := by
    rw [hb.next, length_chain]
    exact UInt32.toNat_ofNat'
  omega

/-! ## Turns -/

/-- The height that an event reports. -/
def Event.height? : Event → Option UInt32
  | .reached height => some height
  | .fatal _ => none

namespace Shared

/-- The heights reported so far. -/
def reported (s : Shared) : List UInt32 := s.events.filterMap Event.height?

/-- The chain is the same, and no events but errors were sent since. -/
structure Calm (s s' : Shared) : Prop where
  chain : s'.ledger.chain = s.ledger.chain
  sent : ∃ errors : List Error, s'.events = s.events ++ errors.map .fatal

variable {s s' : Shared}

theorem Calm.size (h : s.Calm s') : s'.ledger.size = s.ledger.size := Ledger.size_congr h.chain

theorem Calm.reported (h : s.Calm s') : s'.reported = s.reported := by
  obtain ⟨errors, he⟩ := h.sent
  have hn : (errors.map Event.fatal).filterMap Event.height? = [] := by
    simp [Event.height?, List.filterMap_map, Function.comp_def]
  rw [Shared.reported, he, List.filterMap_append, hn, List.append_nil, Shared.reported]

theorem calm_of_chain {l : Ledger} {stopped : Bool} (h : l.chain = s.ledger.chain) :
    s.Calm { s with ledger := l, stopped := stopped } :=
  ⟨h, [], (List.append_nil _).symm⟩

theorem Calm.refl (s : Shared) : s.Calm s := calm_of_chain rfl

theorem calm_abort (s : Shared) (e : Error) : s.Calm (s.abort e) := ⟨rfl, [e], rfl⟩

theorem reported_send_reached (s : Shared) (height : UInt32) :
    (s.send (.reached height)).reported = s.reported ++ [height] := by
  simp [send, reported, Event.height?]

end Shared

namespace Miner

/-- The height of the block that is being made. -/
def Stage.aim? : Stage → Option UInt32
  | .timing candidate => some candidate.height
  | .searching candidate _ => some candidate.height
  | .submitting block => some block.height
  | _ => none

/-- The height that was won, as long as it may still be announced. -/
def Stage.news? : Stage → Option UInt32
  | .paying height => some height
  | .announcing height => some height
  | _ => none

variable {miner : Miner} {ps : Participants} {stage stage' : Stage} {shared shared' : Shared}
  {m : Moment}

/-- What a turn does that neither wins a block nor announces one. A new aim comes from a look at a
ledger below the target. -/
structure Calm (miner : Miner) (stage stage' : Stage) (shared shared' : Shared) : Prop where
  around : shared.Calm shared'
  news : stage'.news? = none ∨ stage'.news? = stage.news?
  aim : ∀ height, stage'.aim? = some height → stage.aim? = some height ∨
    (shared.ledger.last.height < miner.target ∧ height = shared.ledger.last.height + 1)

/-- What a turn of a miner can do. -/
theorem step_cases (h : miner.step ps stage shared m = (stage', shared')) :
    miner.Calm stage stage' shared shared' ∨
    (∃ block, stage = .submitting block ∧ shared.ledger.Acceptable block m.now ∧
      stage' = .paying block.height ∧
      shared' = { shared with ledger := shared.ledger.extend block }) ∨
    (stage = .announcing miner.target ∧ stage' = .deciding ∧
      shared' = shared.send (.reached miner.target)) := by
  unfold step at h
  cases stage with
  | deciding =>
    left
    dsimp only at h
    split at h
    · cases h
      exact ⟨.refl _, .inl rfl, by simp [Stage.aim?]⟩
    · cases h
      exact ⟨.refl _, .inl rfl, by simp [Stage.aim?]⟩
  | looking =>
    left
    dsimp only at h
    split at h
    · cases h
      exact ⟨.refl _, .inl rfl, by simp [Stage.aim?]⟩
    · rename_i hlow
      cases h
      refine ⟨.refl _, .inl rfl, fun height ha => .inr ⟨UInt32.not_le.mp hlow, ?_⟩⟩
      cases ha
      rfl
  | timing candidate =>
    left
    dsimp only at h
    split at h
    · cases h
      exact ⟨.refl _, .inl rfl, fun _ => .inl⟩
    · cases h
      exact ⟨.refl _, .inl rfl, by simp [Stage.aim?]⟩
  | searching candidate timestamp =>
    left
    dsimp only at h
    split at h
    · cases h
      exact ⟨.refl _, .inl rfl, by simp [Stage.aim?]⟩
    · split at h
      · rename_i block hb
        cases h
        obtain ⟨nonce, hash, rfl⟩ := (Candidate.makes_of_firstHit hb).eq_block
        exact ⟨.refl _, .inl rfl, fun _ => .inl⟩
      · cases h
        exact ⟨.refl _, .inl rfl, fun _ => .inl⟩
  | submitting block =>
    dsimp only at h
    split at h
    · rename_i taken ht
      cases h
      obtain ⟨ha, rfl⟩ := Ledger.append_eq_ok_iff.mp ht
      exact .inr (.inl ⟨block, rfl, ha.later m.deadline_le, rfl, rfl⟩)
    · cases h
      exact .inl ⟨.refl _, .inl rfl, by simp [Stage.aim?]⟩
  | paying height =>
    left
    -- Named first, or else the payment is evaluated when the branches are compared.
    generalize hp : miner.pay ps shared.ledger m = outcome at h
    cases outcome with
    | ok paid =>
      cases h
      exact ⟨Shared.calm_of_chain (chain_of_pay hp), .inr rfl, by simp [Stage.aim?]⟩
    | error e =>
      cases h
      exact ⟨.refl _, .inl rfl, by simp [Stage.aim?]⟩
  | announcing height =>
    by_cases ht : height = miner.target
    · subst ht
      dsimp only at h
      rw [if_pos rfl] at h
      cases h
      exact .inr (.inr ⟨rfl, rfl, rfl⟩)
    · left
      dsimp only at h
      rw [if_neg ht] at h
      cases h
      exact ⟨.refl _, .inl rfl, by simp [Stage.aim?]⟩
  | failed e =>
    left
    cases h
    exact ⟨Shared.calm_abort _ e, .inl rfl, by simp [Stage.aim?]⟩
  | done =>
    left
    cases h
    exact ⟨.refl _, .inl rfl, by simp [Stage.aim?]⟩

theorem step_of_pay_eq_error {height : UInt32} {e : Error}
    (h : miner.pay ps shared.ledger m = .error e) :
    miner.step ps (.paying height) shared m = (.failed e, shared) := by
  unfold step
  dsimp only
  rw [h]

end Miner

theorem Client.calm_step (s : Settings) (ps : Participants) (stage : Client.Stage)
    (shared : Shared) (m : Moment) : shared.Calm (Client.step s ps stage shared m).2 := by
  cases stage with
  | resting wake =>
    simp only [Client.step]
    split
    · exact .refl _
    · split
      · exact .refl _
      · split
        · rename_i paid ht
          exact Shared.calm_of_chain (Client.chain_of_tick ht)
        · exact .refl _
  | failed e => exact Shared.calm_abort shared e
  | done => exact .refl _

namespace Arena

/-! ## Everything that can happen in a run -/

/-- A worker takes a turn, a transaction comes from anywhere, or the flag is set. -/
inductive Move
  | turn (worker : Worker) (m : Moment)
  | submit (t : Transaction)
  | stop

def step (a : Arena) : Move → Arena
  | .turn w m => a.turn w m
  | .submit t =>
    { a with shared := { a.shared with ledger := a.shared.ledger.perform (.submit t) } }
  | .stop => { a with shared := { a.shared with stopped := true } }

def play (a : Arena) (moves : List Move) : Arena := moves.foldl step a

/-- Miners with these numbers and one target, about to begin on a ledger of the first block. The
clients may be at any stage. -/
def opened (s : Settings) (ps : Participants) (crew : List (UInt32 × Participant))
    (clients : Option Client.Stage) (target : UInt32) (difficulty : Nat) (stopped : Bool) :
    Arena where
  settings := s
  participants := ps
  shared := ⟨.withDifficulty difficulty, stopped, []⟩
  miners := crew.map fun (id, p) => (⟨id, p, target⟩, .deciding)
  clients := clients

/-- The events of a move, each with the size of the ledger when it was sent. -/
def sent (a : Arena) (move : Move) : List (Event × Nat) :=
  ((a.step move).shared.events.drop a.shared.events.length).map (·, a.shared.ledger.size)

def log (a : Arena) : List Move → List (Event × Nat)
  | [] => []
  | move :: rest => a.sent move ++ (a.step move).log rest

/-- The events that report a height. -/
def reports (a : Arena) (moves : List Move) : List (Event × Nat) :=
  (a.log moves).filter (·.1.height?.isSome)

theorem start_eq_opened (s : Settings) (ps : Participants) (difficulty : Nat) (stopped : Bool)
    (m : Moment) :
    start s ps (.withDifficulty difficulty) stopped m =
      opened s ps (ps.miners.zipIdx.map fun (p, i) => (UInt32.ofNat i, p))
        (if ps.clients.isEmpty then none else some (.start s m)) s.chainSize difficulty
        stopped := by
  simp [start, opened]

theorem play_turns (a : Arena) (schedule : List (Worker × Moment)) :
    a.play (schedule.map fun (w, m) => .turn w m) = a.run schedule := by
  rw [play, List.foldl_map]
  rfl

/-! ## What a move can do -/

/-- The heights that were won and are reported already, or may still be. -/
def news (a : Arena) : List UInt32 := a.miners.filterMap (·.2.news?) ++ a.shared.reported

/-- A move is the turn of one miner, which leaves the others as they are, or it neither wins a block
nor reports a height. -/
theorem step_cases (a : Arena) (move : Move) :
    (a.shared.Calm (a.step move).shared ∧ (a.step move).miners = a.miners) ∨
    ∃ before miner stage after worker m stage' shared', move = .turn worker m ∧
      a.miners = before ++ (miner, stage) :: after ∧
      miner.step a.participants stage a.shared m = (stage', shared') ∧
      (a.step move).miners = before ++ (miner, stage') :: after ∧
      (a.step move).shared = shared' := by
  cases move with
  | turn worker m =>
    cases worker with
    | miner place =>
      simp only [step, turn]
      cases hp : a.miners[place]? with
      | none => exact .inl ⟨.refl _, rfl⟩
      | some worker =>
        obtain ⟨miner, stage⟩ := worker
        obtain ⟨hlt, he⟩ := List.getElem?_eq_some_iff.mp hp
        refine .inr ⟨a.miners.take place, miner, stage, a.miners.drop (place + 1), _, m, _, _, rfl,
          ?_, rfl, ?_, rfl⟩
        · rw [← he, List.getElem_cons_drop, List.take_append_drop]
        · exact List.set_eq_take_append_cons_drop.trans (if_pos hlt)
    | clients =>
      left
      simp only [step, turn]
      cases a.clients with
      | none => exact ⟨.refl _, rfl⟩
      | some stage => exact ⟨Client.calm_step _ _ _ _ _, rfl⟩
    | coordinator =>
      left
      simp only [step, turn]
      split
      · exact ⟨.refl _, rfl⟩
      · exact ⟨Shared.calm_of_chain rfl, rfl⟩
  | submit t =>
    left
    refine ⟨Shared.calm_of_chain ?_, rfl⟩
    rcases a.shared.ledger.perform_cases (.submit t) with ⟨_, hp⟩ | ⟨_, _, _, _, hp⟩ | ⟨_, _, he, _⟩
    · rw [hp]
    · rw [hp]
      rfl
    · cases he
  | stop => exact .inl ⟨Shared.calm_of_chain rfl, rfl⟩

/-! ## On course for the target -/

/-- No block above the target is made or accepted, and a height is news once: it is won by a block
that is above all blocks before it. -/
structure OnCourse (target : UInt32) (a : Arena) : Prop where
  targets : ∀ w ∈ a.miners, w.1.target = target
  aims : ∀ w ∈ a.miners, ∀ height, w.2.aim? = some height → height ≠ 0 ∧ height ≤ target
  size_le : a.shared.ledger.size ≤ target.toNat
  news_nodup : a.news.Nodup
  news_le : ∀ height ∈ a.news, height.toNat ≤ a.shared.ledger.size
  reported : ∀ height ∈ a.shared.reported, height = target

variable {a b : Arena} {target : UInt32} {before after : List (Miner × Miner.Stage)} {miner : Miner}
  {stage stage' : Miner.Stage} {block : Block} {now : Int64}

theorem news_perm (h : a.miners = before ++ (miner, stage) :: after) :
    a.news.Perm (stage.news?.toList ++
      ((before ++ after).filterMap (·.2.news?) ++ a.shared.reported)) := by
  rw [news, h, ← List.append_assoc]
  refine List.Perm.append_right _ ?_
  have hm : (before ++ (miner, stage) :: after).Perm ((miner, stage) :: (before ++ after)) :=
    List.perm_middle
  refine (hm.filterMap _).trans (List.Perm.of_eq ?_)
  cases hn : stage.news? with
  | none => simp [hn]
  | some height => simp [hn]

theorem onCourse_opened (s : Settings) (ps : Participants) (crew : List (UInt32 × Participant))
    (clients : Option Client.Stage) (target : UInt32) (difficulty : Nat) (stopped : Bool) :
    (opened s ps crew clients target difficulty stopped).OnCourse target := by
  have hm : ∀ w ∈ (opened s ps crew clients target difficulty stopped).miners,
      w.1.target = target ∧ w.2 = .deciding := by
    intro w hw
    obtain ⟨_, _, rfl⟩ := List.mem_map.mp hw
    exact ⟨rfl, rfl⟩
  have hn : (opened s ps crew clients target difficulty stopped).news = [] := by
    simp [news, opened, Miner.Stage.news?, Shared.reported]
  refine ⟨fun w hw => (hm w hw).1, fun w hw height ha => ?_, Nat.zero_le _, ?_, ?_, ?_⟩
  · rw [(hm w hw).2] at ha
    cases ha
  · rw [hn]
    exact List.nodup_nil
  · simp [hn]
  · simp [opened, Shared.reported]

namespace OnCourse

theorem toNat_height (h : a.OnCourse target) (hb : a.shared.ledger.Acceptable block now)
    (hz : block.height ≠ 0) : block.height.toNat = a.shared.ledger.size + 1 :=
  hb.toNat_height_of_ne_zero (Nat.lt_of_le_of_lt h.size_le target.toNat_lt_size) hz

theorem calm (h : a.OnCourse target) (hs : a.shared.Calm b.shared) (hm : b.miners = a.miners) :
    b.OnCourse target := by
  have hn : b.news = a.news := by rw [news, news, hm, hs.reported]
  refine ⟨by rw [hm]; exact h.targets, by rw [hm]; exact h.aims, ?_, ?_, ?_, ?_⟩
  · rw [hs.size]
    exact h.size_le
  · rw [hn]
    exact h.news_nodup
  · rw [hn, hs.size]
    exact h.news_le
  · rw [hs.reported]
    exact h.reported

section Turns

variable (h : a.OnCourse target) (hm : a.miners = before ++ (miner, stage) :: after)
  (hb : b.miners = before ++ (miner, stage') :: after)

include h hm

theorem target_eq : miner.target = target := h.targets (miner, stage) (by simp [hm])

theorem aim (height : UInt32) (ha : stage.aim? = some height) : height ≠ 0 ∧ height ≤ target :=
  h.aims (miner, stage) (by simp [hm]) height ha

include hb

theorem targets_aims (ha : ∀ height, stage'.aim? = some height → height ≠ 0 ∧ height ≤ target) :
    (∀ w ∈ b.miners, w.1.target = target) ∧
      ∀ w ∈ b.miners, ∀ height, w.2.aim? = some height → height ≠ 0 ∧ height ≤ target := by
  have ht := h.targets
  have hs := h.aims
  rw [hm] at ht hs
  rw [hb]
  simp only [List.forall_mem_append, List.forall_mem_cons] at ht hs ⊢
  exact ⟨ht, hs.1, ha, hs.2.2⟩

theorem turn_calm (hc : miner.Calm stage stage' a.shared b.shared) : b.OnCourse target := by
  have haim : ∀ height, stage'.aim? = some height → height ≠ 0 ∧ height ≤ target := by
    intro height ha
    rcases hc.aim height ha with hold | ⟨hlow, rfl⟩
    · exact h.aim hm height hold
    · rw [h.target_eq hm, UInt32.lt_iff_toNat_lt] at hlow
      have ht : target.toNat < 2 ^ 32 := target.toNat_lt
      rw [ne_eq, ← UInt32.toNat_inj, UInt32.le_iff_toNat_le, UInt32.toNat_add]
      simp only [UInt32.toNat_zero, UInt32.toNat_one]
      omega
  obtain ⟨htargets, haims⟩ := h.targets_aims hm hb haim
  have ha := news_perm hm
  have hn := news_perm hb
  rw [hc.around.reported] at hn
  have hsub : stage'.news?.toList.Sublist stage.news?.toList := by
    rcases hc.news with he | he
    · rw [he]
      exact List.nil_sublist _
    · rw [he]
  have hsub := hsub.append_right ((before ++ after).filterMap (·.2.news?) ++ a.shared.reported)
  refine ⟨htargets, haims, ?_, ?_, ?_, ?_⟩
  · rw [hc.around.size]
    exact h.size_le
  · exact hn.nodup_iff.mpr ((ha.nodup_iff.mp h.news_nodup).sublist hsub)
  · intro height hh
    rw [hc.around.size]
    exact h.news_le height (ha.mem_iff.mpr (hsub.subset (hn.mem_iff.mp hh)))
  · rw [hc.around.reported]
    exact h.reported

end Turns

/-- The height that was won is above all that was won before. -/
theorem turn_won (h : a.OnCourse target)
    (hm : a.miners = before ++ (miner, .submitting block) :: after)
    (hb : b.miners = before ++ (miner, .paying block.height) :: after)
    (hp : a.shared.ledger.Acceptable block now)
    (hl : b.shared = { a.shared with ledger := a.shared.ledger.extend block }) :
    b.OnCourse target := by
  obtain ⟨hz, hle⟩ := h.aim hm block.height rfl
  have hheight := h.toNat_height hp hz
  obtain ⟨htargets, haims⟩ := h.targets_aims hm hb (fun _ ha => by cases ha)
  have hr : b.shared.reported = a.shared.reported := by rw [hl]; rfl
  have hsize : b.shared.ledger.size = a.shared.ledger.size + 1 := by
    rw [hl]
    exact Ledger.size_extend _ _
  have hn : b.news.Perm (block.height :: a.news) := by
    have hnb := news_perm hb
    rw [hr] at hnb
    exact hnb.trans ((news_perm hm).symm.cons block.height)
  have hnew : block.height ∉ a.news := fun hh => by
    have := h.news_le _ hh
    omega
  refine ⟨htargets, haims, ?_, ?_, ?_, ?_⟩
  · rw [hsize, ← hheight]
    exact UInt32.le_iff_toNat_le.mp hle
  · exact hn.nodup_iff.mpr (List.nodup_cons.mpr ⟨hnew, h.news_nodup⟩)
  · intro height hh
    rw [hsize]
    rcases List.mem_cons.mp (hn.mem_iff.mp hh) with rfl | hh
    · exact Nat.le_of_eq hheight
    · exact Nat.le_succ_of_le (h.news_le height hh)
  · rw [hr]
    exact h.reported

/-- The height that is announced was news before, and is known afterwards. -/
theorem turn_told (h : a.OnCourse target)
    (hm : a.miners = before ++ (miner, .announcing miner.target) :: after)
    (hb : b.miners = before ++ (miner, .deciding) :: after)
    (hl : b.shared = a.shared.send (.reached miner.target)) : b.OnCourse target := by
  obtain ⟨htargets, haims⟩ := h.targets_aims hm hb (fun _ ha => by cases ha)
  have hr : b.shared.reported = a.shared.reported ++ [miner.target] := by
    rw [hl, Shared.reported_send_reached]
  have hn : b.news.Perm a.news := by
    have hnb := news_perm hb
    rw [hr, ← List.append_assoc, ← List.append_assoc] at hnb
    exact (hnb.trans (List.perm_append_singleton _ _)).trans (news_perm hm).symm
  have hsize : b.shared.ledger.size = a.shared.ledger.size := by rw [hl]; rfl
  refine ⟨htargets, haims, ?_, ?_, ?_, ?_⟩
  · rw [hsize]
    exact h.size_le
  · exact hn.nodup_iff.mpr h.news_nodup
  · intro height hh
    rw [hsize]
    exact h.news_le height (hn.mem_iff.mp hh)
  · intro height hh
    rw [hr] at hh
    rcases List.mem_append.mp hh with hh | hh
    · exact h.reported height hh
    · rw [List.mem_singleton.mp hh, h.target_eq hm]

theorem step (h : a.OnCourse target) (move : Move) : (a.step move).OnCourse target := by
  rcases a.step_cases move with
    ⟨hs, hm⟩ | ⟨before, miner, stage, after, _, m, stage', shared', _, hm, ht, hb, rfl⟩
  · exact h.calm hs hm
  · rcases Miner.step_cases ht with hc | ⟨block, rfl, hp, rfl, hl⟩ | ⟨rfl, rfl, hl⟩
    · exact h.turn_calm hm hb hc
    · exact h.turn_won hm hb hp hl
    · exact h.turn_told hm hb hl

theorem play (h : a.OnCourse target) (moves : List Move) : (a.play moves).OnCourse target := by
  induction moves generalizing a with
  | nil => exact h
  | cons move moves ih => exact ih (h.step move)

end OnCourse

/-- Every run of the simulator on a new ledger stays on course for the size in its settings. -/
theorem onCourse_run (s : Settings) (ps : Participants) (difficulty : Nat) (stopped : Bool)
    (m : Moment) (schedule : List (Worker × Moment)) :
    ((start s ps (.withDifficulty difficulty) stopped m).run schedule).OnCourse s.chainSize := by
  rw [start_eq_opened, ← play_turns]
  exact (onCourse_opened _ _ _ _ _ _ _).play _

/-! ## Reports -/

/-- What a move sends: errors, or the target from a miner that has it to announce. -/
theorem sent_cases (a : Arena) (move : Move) :
    ∃ new, (a.step move).shared.events = a.shared.events ++ new ∧
      a.sent move = new.map (·, a.shared.ledger.size) ∧
      ((∃ errors : List Error, new = errors.map .fatal) ∨
        ∃ before miner after, a.miners = before ++ (miner, .announcing miner.target) :: after ∧
          new = [.reached miner.target]) := by
  have hsent {new : List Event} (he : (a.step move).shared.events = a.shared.events ++ new) :
      a.sent move = new.map (·, a.shared.ledger.size) := by
    rw [sent, he, List.drop_left]
  rcases a.step_cases move with
    ⟨⟨_, errors, he⟩, _⟩ |
      ⟨before, miner, stage, after, _, m, stage', shared', _, hm, ht, _, hs⟩
  · exact ⟨_, he, hsent he, .inl ⟨errors, rfl⟩⟩
  · rcases Miner.step_cases ht with ⟨⟨_, errors, he⟩, _, _⟩ | ⟨_, _, _, _, hl⟩ | ⟨rfl, _, hl⟩
    · rw [← hs] at he
      exact ⟨_, he, hsent he, .inl ⟨errors, rfl⟩⟩
    · have he : (a.step move).shared.events = a.shared.events ++ [] := by
        rw [hs, hl, List.append_nil]
      exact ⟨_, he, hsent he, .inl ⟨[], rfl⟩⟩
    · have he : (a.step move).shared.events = a.shared.events ++ [.reached miner.target] := by
        rw [hs, hl]
        rfl
      exact ⟨_, he, hsent he, .inr ⟨before, miner, after, hm, rfl⟩⟩

/-- The log of a run is all that is sent in it, in order. -/
theorem events_play (a : Arena) (moves : List Move) :
    (a.play moves).shared.events = a.shared.events ++ (a.log moves).map Prod.fst := by
  induction moves generalizing a with
  | nil => exact (List.append_nil _).symm
  | cons move moves ih =>
    obtain ⟨new, he, hn, _⟩ := a.sent_cases move
    rw [play, List.foldl_cons, ← play, ih, he, log, hn, List.map_append, List.map_map,
      List.append_assoc]
    simp [Function.comp_def]

theorem reported_play (a : Arena) (moves : List Move) :
    (a.play moves).shared.reported =
      a.shared.reported ++ (a.reports moves).filterMap (·.1.height?) := by
  rw [Shared.reported, events_play, List.filterMap_append, List.filterMap_map, reports,
    List.filterMap_filter, Shared.reported]
  congr 2
  funext r
  cases hr : r.1.height? with
  | none => simp [hr]
  | some height => simp [hr]

/-- On course, a height is reported when it is the target and the size of the ledger. -/
theorem OnCourse.eq_of_mem_sent (h : a.OnCourse target) {move : Move} {r : Event × Nat}
    (hs : r ∈ a.sent move) (hr : r.1.height?.isSome) : r = (.reached target, target.toNat) := by
  obtain ⟨new, _, hn, hcases⟩ := a.sent_cases move
  rw [hn] at hs
  obtain ⟨e, he, rfl⟩ := List.mem_map.mp hs
  rcases hcases with ⟨errors, rfl⟩ | ⟨before, miner, after, hm, rfl⟩
  · obtain ⟨error, _, rfl⟩ := List.mem_map.mp he
    cases hr
  · have ht := h.target_eq hm
    have hnews : target ∈ a.news := (news_perm hm).mem_iff.mpr (by
      rw [ht]
      exact List.mem_cons_self)
    rw [List.mem_singleton.mp he, ht, Nat.le_antisymm h.size_le (h.news_le _ hnews)]

theorem OnCourse.eq_of_mem_reports (h : a.OnCourse target) {moves : List Move} :
    ∀ r ∈ a.reports moves, r = (.reached target, target.toNat) := by
  induction moves generalizing a with
  | nil => simp [reports, log]
  | cons move moves ih =>
    intro r hr
    rw [reports, log, List.filter_append] at hr
    rcases List.mem_append.mp hr with hr | hr
    · obtain ⟨hs, hsome⟩ := List.mem_filter.mp hr
      exact h.eq_of_mem_sent hs hsome
    · exact ih (h.step move) r hr

/-- Miners with one target never take the ledger beyond it, whatever the order of their turns, the
transactions that come between, and the time at which they are told to stop. At most one height is
reported; it is the target, and the ledger has just that size at that time. -/
theorem target_reached_once (s : Settings) (ps : Participants) (crew : List (UInt32 × Participant))
    (clients : Option Client.Stage) (target : UInt32) (difficulty : Nat) (stopped : Bool)
    (moves : List Move) :
    let start := opened s ps crew clients target difficulty stopped
    (start.play moves).shared.ledger.size ≤ target.toNat ∧
      (start.reports moves = [] ∨ start.reports moves = [(.reached target, target.toNat)]) := by
  intro start
  have hstart : start.OnCourse target := onCourse_opened s ps crew clients target difficulty stopped
  have hend := hstart.play moves
  refine ⟨hend.size_le, ?_⟩
  obtain ⟨count, hc⟩ : ∃ count, start.reports moves =
      List.replicate count (.reached target, target.toNat) :=
    ⟨_, List.eq_replicate_of_mem hstart.eq_of_mem_reports⟩
  -- Each report is news, and the same height is no news twice.
  have hr : (start.play moves).shared.reported = List.replicate count target := by
    rw [reported_play, hc]
    simp [start, opened, Shared.reported, Event.height?]
  have hn : (List.replicate count target).Nodup := by
    rw [← hr]
    exact hend.news_nodup.of_append_right
  have hle : count ≤ 1 := List.nodup_replicate.mp hn
  rcases Nat.le_one_iff_eq_zero_or_eq_one.mp hle with rfl | rfl
  · exact .inl hc
  · exact .inr hc

end Arena

end WorkLedger
