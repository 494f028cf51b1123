import WorkLedger.Proofs.Rules.Verdicts

/-! Runs of a ledger: any calls in any order, with any transactions, candidates and clock readings.
A call that is turned down changes nothing. What holds at the start, and is kept by each transaction
that gets in and each block that is accepted, holds after every run. -/

namespace WorkLedger.Ledger

/-- A transaction or a candidate is handed in; the candidate meets a clock reading. -/
inductive Call
  | submit (t : Transaction)
  | append (candidate : Block) (now : Int64)

/-- The transaction that a call hands in by itself. -/
def Call.submitted : Call → List Transaction
  | .submit t => [t]
  | .append _ _ => []

/-- The transactions that a call brings in a block. -/
def Call.carried : Call → List Transaction
  | .submit _ => []
  | .append candidate _ => candidate.transactions

def takes (l : Ledger) : Call → Bool
  | .submit t => (l.submit t).isOk
  | .append candidate now => (l.append candidate now).isOk

def perform (l : Ledger) : Call → Ledger
  | .submit t => (l.submit t).toOption.getD l
  | .append candidate now => (l.append candidate now).toOption.getD l

def run (l : Ledger) (calls : List Call) : Ledger := calls.foldl perform l

theorem run_append (l : Ledger) (before after : List Call) :
    l.run (before ++ after) = (l.run before).run after := List.foldl_append

/-- The transactions that were let in during a run, in order. -/
def admitted (l : Ledger) : List Call → List Transaction
  | [] => []
  | c :: rest => (if l.takes c then c.submitted else []) ++ (l.perform c).admitted rest

/-- Every call of the run meets the condition, in the state in which it is made. -/
def Throughout (condition : Ledger → Call → Prop) (l : Ledger) : List Call → Prop
  | [] => True
  | c :: rest => condition l c ∧ (l.perform c).Throughout condition rest

instance decidableThroughout (condition : Ledger → Call → Prop)
    [∀ l c, Decidable (condition l c)] : ∀ l calls, Decidable (Throughout condition l calls)
  | _, [] => .isTrue trivial
  | l, c :: rest =>
    have := decidableThroughout condition (l.perform c) rest
    inferInstanceAs (Decidable (condition l c ∧ (l.perform c).Throughout condition rest))

theorem throughout_true (l : Ledger) (calls : List Call) :
    l.Throughout (fun _ _ => True) calls := by
  induction calls generalizing l with
  | nil => trivial
  | cons c rest ih => exact ⟨trivial, ih (l.perform c)⟩

theorem throughout_and_iff {p q : Ledger → Call → Prop} {l : Ledger} {calls : List Call} :
    l.Throughout (fun l c => p l c ∧ q l c) calls ↔
      l.Throughout p calls ∧ l.Throughout q calls := by
  induction calls generalizing l with
  | nil => exact ⟨fun _ => ⟨trivial, trivial⟩, fun _ => trivial⟩
  | cons c rest ih =>
    simp only [Throughout, ih]
    exact and_and_and_comm

theorem Throughout.mono {p q : Ledger → Call → Prop} (hpq : ∀ l c, p l c → q l c) {l : Ledger}
    {calls : List Call} (h : l.Throughout p calls) : l.Throughout q calls := by
  induction calls generalizing l with
  | nil => trivial
  | cons c rest ih => exact ⟨hpq l c h.1, ih h.2⟩

/-- What no call brings about held before the run, if it holds after it. -/
theorem of_run {P : Ledger → Prop} (back : ∀ l c, P (l.perform c) → P l) {l : Ledger}
    {calls : List Call} (h : P (l.run calls)) : P l := by
  induction calls generalizing l with
  | nil => exact h
  | cons c rest ih => exact back l c (ih h)

/-- It held after each call as well. -/
theorem throughout_of_run {P : Ledger → Prop} (back : ∀ l c, P (l.perform c) → P l) {l : Ledger}
    {calls : List Call} (h : P (l.run calls)) :
    l.Throughout (fun l c => P (l.perform c)) calls := by
  induction calls generalizing l with
  | nil => trivial
  | cons c rest ih => exact ⟨of_run back h, ih h⟩

theorem perform_submit {l : Ledger} {t : Transaction} (h : Admission.Admissible t l.chain l.pool) :
    l.takes (.submit t) = true ∧ l.perform (.submit t) = l.enqueue t := by
  rw [takes, perform, submit_eq_ok_iff.mpr ⟨h, rfl⟩]
  exact ⟨rfl, rfl⟩

theorem perform_append {l : Ledger} {b : Block} {now : Int64} (h : l.Acceptable b now) :
    l.takes (.append b now) = true ∧ l.perform (.append b now) = l.extend b := by
  rw [takes, perform, append_eq_ok_iff.mpr ⟨h, rfl⟩]
  exact ⟨rfl, rfl⟩

theorem takes_append_iff {l : Ledger} {b : Block} {now : Int64} :
    l.takes (.append b now) = true ↔ l.Acceptable b now := by
  refine ⟨fun h => ?_, fun h => (perform_append h).1⟩
  cases ha : l.append b now with
  | error rejection =>
    rw [takes, ha] at h
    cases h
  | ok l' => exact (append_eq_ok_iff.mp ha).1

/-- Whatever a call is, the ledger turns it down and stays as it is, takes a transaction in or puts
a block on top. -/
theorem perform_cases (l : Ledger) (c : Call) :
    (l.takes c = false ∧ l.perform c = l) ∨
    (∃ t, c = .submit t ∧ l.takes c = true ∧ Admission.Admissible t l.chain l.pool ∧
      l.perform c = l.enqueue t) ∨
    (∃ b now, c = .append b now ∧ l.takes c = true ∧ l.Acceptable b now ∧
      l.perform c = l.extend b) := by
  cases c with
  | submit t =>
    cases h : l.submit t with
    | error rejection => exact .inl ⟨by rw [takes, h]; rfl, by rw [perform, h]; rfl⟩
    | ok l' =>
      obtain ⟨ha, _⟩ := submit_eq_ok_iff.mp h
      obtain ⟨ht, hp⟩ := perform_submit ha
      exact .inr (.inl ⟨t, rfl, ht, ha, hp⟩)
  | append b now =>
    cases h : l.append b now with
    | error rejection => exact .inl ⟨by rw [takes, h]; rfl, by rw [perform, h]; rfl⟩
    | ok l' =>
      obtain ⟨ha, _⟩ := append_eq_ok_iff.mp h
      obtain ⟨ht, hp⟩ := perform_append ha
      exact .inr (.inr ⟨b, now, rfl, ht, ha, hp⟩)

/-- An invariant of the ledger and of the transactions admitted so far holds after every run whose
calls meet a condition, if what the ledger takes keeps it. -/
theorem run_invariant {condition : Ledger → Call → Prop} {P : Ledger → List Transaction → Prop}
    (submit : ∀ l log t, P l log → Admission.Admissible t l.chain l.pool →
      P (l.enqueue t) (log ++ [t]))
    (append : ∀ l log b now, P l log → condition l (.append b now) →
      l.takes (.append b now) = true → l.Acceptable b now → P (l.extend b) log)
    {l : Ledger} (log : List Transaction) (h : P l log) {calls : List Call}
    (hc : l.Throughout condition calls) : P (l.run calls) (log ++ l.admitted calls) := by
  induction calls generalizing l log with
  | nil => rwa [admitted, List.append_nil]
  | cons c rest ih =>
    obtain ⟨hcond, hrest⟩ := hc
    rw [run, List.foldl_cons, admitted, ← List.append_assoc]
    refine ih _ ?_ hrest
    rcases l.perform_cases c with ⟨ht, hp⟩ | ⟨t, rfl, ht, ha, hp⟩ | ⟨b, now, rfl, ht, ha, hp⟩
    · rw [hp, ht, if_neg Bool.false_ne_true, List.append_nil]
      exact h
    · rw [hp, ht, if_pos rfl]
      exact submit l log t h ha
    · rw [hp, ht, if_pos rfl]
      simpa [Call.submitted] using append l log b now h hcond ht ha

/-- The same for an invariant of the ledger alone and for any run. -/
theorem run_keeps {P : Ledger → Prop}
    (submit : ∀ l t, P l → Admission.Admissible t l.chain l.pool → P (l.enqueue t))
    (append : ∀ l b now, P l → l.Acceptable b now → P (l.extend b))
    {l : Ledger} (h : P l) (calls : List Call) : P (l.run calls) :=
  run_invariant (P := fun l _ => P l) (fun l _ t h ha => submit l t h ha)
    (fun l _ b now h _ _ ha => append l b now h ha) [] h (throughout_true l calls)

/-- Under an invariant, a condition on all calls of a run may be traded for one that follows. -/
theorem Throughout.imp {condition condition' : Ledger → Call → Prop} {P : Ledger → Prop}
    (submit : ∀ l t, P l → Admission.Admissible t l.chain l.pool → P (l.enqueue t))
    (append : ∀ l b now, P l → l.Acceptable b now → P (l.extend b))
    (himp : ∀ l c, P l → condition l c → condition' l c) {l : Ledger} (h : P l)
    {calls : List Call} (hc : l.Throughout condition calls) : l.Throughout condition' calls := by
  induction calls generalizing l with
  | nil => trivial
  | cons c rest ih =>
    exact ⟨himp l c h hc.1, ih (run_keeps submit append h [c]) hc.2⟩

/-- A run that starts from the first block alone still starts with it. -/
theorem chain_run (difficulty : Nat) (calls : List Call) :
    ((withDifficulty difficulty).run calls).chain =
      Block.genesis :: mined ((withDifficulty difficulty).run calls).chain := by
  refine run_keeps (P := fun l => l.chain = Block.genesis :: mined l.chain)
    (fun l t h _ => h) (fun l b now h _ => ?_) rfl calls
  change l.chain ++ [b] = Block.genesis :: mined (l.chain ++ [b])
  rw [mined_append l.chain_ne_nil, ← List.cons_append, ← h]

end WorkLedger.Ledger
