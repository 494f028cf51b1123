import WorkLedger.Bytes.Base58
import WorkLedger.Digest

/-! Hashed texts, read back. The fields of a header are hashed in a row with nothing between them,
so height, time and nonce run into each other. The others can still be told apart: the two hashes at
the end have a known length, and the reward ends at the last letter before them. A transaction can
be read from the left, because an address has neither blanks nor line breaks in it. -/

namespace WorkLedger

/-! ## Cutting a text -/

/-- There is one way to cut a list at the first element that has not some property. -/
theorem append_cons_inj_of_forall {α : Type} {p : α → Prop} {x y : α} {as bs cs ds : List α}
    (ha : ∀ a ∈ as, p a) (hc : ∀ c ∈ cs, p c) (hx : ¬ p x) (hy : ¬ p y)
    (h : as ++ x :: bs = cs ++ y :: ds) : as = cs ∧ x = y ∧ bs = ds := by
  induction as generalizing cs with
  | nil =>
    cases cs with
    | nil => exact ⟨rfl, List.cons.inj h⟩
    | cons c cs =>
      obtain rfl : x = c := List.head_eq_of_cons_eq h
      exact absurd (hc x List.mem_cons_self) hx
  | cons a as ih =>
    cases cs with
    | nil =>
      obtain rfl : a = y := List.head_eq_of_cons_eq h
      exact absurd (ha a List.mem_cons_self) hy
    | cons c cs =>
      rw [List.cons_append, List.cons_append] at h
      obtain ⟨rfl, ht⟩ := List.cons.inj h
      obtain ⟨rfl, hr⟩ := ih (fun z hz => ha z (List.mem_cons_of_mem _ hz))
        (fun z hz => hc z (List.mem_cons_of_mem _ hz)) ht
      exact ⟨rfl, hr⟩

/-- There is one way to cut a list at the last such element. -/
theorem append_cons_inj_of_forall_right {α : Type} {p : α → Prop} {x y : α}
    {as bs cs ds : List α} (hb : ∀ b ∈ bs, p b) (hd : ∀ d ∈ ds, p d) (hx : ¬ p x) (hy : ¬ p y)
    (h : as ++ x :: bs = cs ++ y :: ds) : as = cs ∧ x = y ∧ bs = ds := by
  have hr := congrArg List.reverse h
  simp only [List.reverse_append, List.reverse_cons, List.append_assoc, List.singleton_append] at hr
  obtain ⟨hb, hxy, ha⟩ := append_cons_inj_of_forall (by simpa using hb) (by simpa using hd) hx hy hr
  exact ⟨List.reverse_inj.mp ha, hxy, List.reverse_inj.mp hb⟩

theorem append_cons_inj_of_first {α : Type} {x : α} {as bs cs ds : List α} (ha : x ∉ as)
    (hc : x ∉ cs) (h : as ++ x :: bs = cs ++ x :: ds) : as = cs ∧ bs = ds := by
  obtain ⟨hl, _, hr⟩ := append_cons_inj_of_forall (p := (· ≠ x))
    (fun a hm he => ha (he ▸ hm)) (fun c hm he => hc (he ▸ hm)) (not_not_intro rfl)
    (not_not_intro rfl) h
  exact ⟨hl, hr⟩

theorem append_cons_inj_of_last {α : Type} {x : α} {as bs cs ds : List α} (hb : x ∉ bs)
    (hd : x ∉ ds) (h : as ++ x :: bs = cs ++ x :: ds) : as = cs ∧ bs = ds := by
  obtain ⟨hl, _, hr⟩ := append_cons_inj_of_forall_right (p := (· ≠ x))
    (fun b hm he => hb (he ▸ hm)) (fun d hm he => hd (he ▸ hm)) (not_not_intro rfl)
    (not_not_intro rfl) h
  exact ⟨hl, hr⟩

/-! ## Decimal numbers -/

theorem isDigit_of_mem_toString_nat {c : Char} {n : Nat} (h : c ∈ (toString n).toList) :
    c.isDigit = true := by
  rw [Nat.toString_eq_ofList_toDigits, String.toList_ofList] at h
  exact Nat.isDigit_of_mem_toDigits (by decide) (by decide) h

theorem not_mem_toString_nat {c : Char} (hc : c.isDigit = false) (n : Nat) :
    c ∉ (toString n).toList := by
  intro h
  rw [isDigit_of_mem_toString_nat h] at hc
  cases hc

theorem toList_toString_nat_ne_nil (n : Nat) : (toString n).toList ≠ [] := by
  rw [Nat.toString_eq_ofList_toDigits, String.toList_ofList]
  exact Nat.toDigits_ne_nil

theorem toList_toString_negSucc (n : Nat) :
    (toString (Int.negSucc n)).toList = '-' :: (toString (n + 1)).toList := by
  rw [← List.singleton_append]
  exact String.toList_append

/-- No zero leads other digits. -/
theorem eq_zero_of_head?_toDigits {n : Nat} (h : (Nat.toDigits 10 n).head? = some '0') : n = 0 := by
  induction n using Nat.strongRecOn with
  | ind n ih =>
    by_cases hn : n < 10
    · rw [Nat.toDigits_of_lt_base hn] at h
      exact (by decide : ∀ d < 10, [Nat.digitChar d].head? = some '0' → d = 0) n hn h
    · have hne : Nat.toDigits 10 (n / 10) ≠ [] := Nat.toDigits_ne_nil
      rw [Nat.toDigits_of_base_le (by decide) (by omega), List.head?_append,
        List.head?_eq_some_head hne, Option.some_or, ← List.head?_eq_some_head hne] at h
      have hz : n / 10 = 0 := ih (n / 10) (by omega) h
      omega

/-- What numbers are written with. -/
def Numeral (c : Char) : Prop := c.isDigit = true ∨ c = '-'

instance (c : Char) : Decidable (Numeral c) :=
  inferInstanceAs (Decidable (c.isDigit = true ∨ c = '-'))

theorem numeral_of_mem_toString_nat {c : Char} {n : Nat} (h : c ∈ (toString n).toList) :
    Numeral c :=
  Or.inl (isDigit_of_mem_toString_nat h)

theorem numeral_of_mem_toString_int {c : Char} {i : Int} (h : c ∈ (toString i).toList) :
    Numeral c := by
  cases i with
  | ofNat n => exact numeral_of_mem_toString_nat h
  | negSucc n =>
    rw [toList_toString_negSucc] at h
    cases List.mem_cons.mp h with
    | inl h => exact Or.inr h
    | inr h => exact numeral_of_mem_toString_nat h

theorem toString_nat_inj {m n : Nat} (h : (toString m).toList = (toString n).toList) : m = n := by
  have hv := congrArg (fun ds => Nat.ofDigitChars 10 ds 0) h
  simpa [Nat.toString_eq_ofList_toDigits] using hv

theorem toString_int_inj {i j : Int} (h : (toString i).toList = (toString j).toList) : i = j := by
  -- A sign is no digit, so both numbers have one or neither has.
  have hs (m n : Nat) : (toString m).toList ≠ '-' :: (toString (n + 1)).toList := fun h =>
    not_mem_toString_nat (by decide) m (h ▸ List.mem_cons_self)
  cases i with
  | ofNat m =>
    cases j with
    | ofNat n => exact congrArg Int.ofNat (toString_nat_inj h)
    | negSucc n =>
      rw [toList_toString_negSucc] at h
      exact absurd h (hs m n)
  | negSucc m =>
    rw [toList_toString_negSucc] at h
    cases j with
    | ofNat n => exact absurd h.symm (hs n m)
    | negSucc n =>
      rw [toList_toString_negSucc] at h
      have hn := toString_nat_inj (List.tail_eq_of_cons_eq h)
      rw [Nat.succ.inj hn]

/-! ## Hashes -/

theorem Hex.length_flatMap_encodeByte (bytes : Bytes) :
    (bytes.flatMap Hex.encodeByte).length = 2 * bytes.length := by
  induction bytes with
  | nil => rfl
  | cons b bytes ih =>
    rw [List.flatMap_cons, List.length_append, ih, List.length_cons]
    simp only [Hex.encodeByte, List.length_cons, List.length_nil]
    omega

theorem Hex.digit_ne_newline : ∀ n < 16, Hex.digit n ≠ '\n' := by decide

theorem Hex.newline_not_mem_encode (bytes : Bytes) : '\n' ∉ (Hex.encode bytes).toList := by
  rw [Hex.encode, String.toList_ofList, List.mem_flatMap]
  rintro ⟨b, _, hb⟩
  have hl : b.toNat < 256 := b.toNat_lt
  simp only [Hex.encodeByte, List.mem_cons, List.not_mem_nil, or_false] at hb
  rcases hb with hb | hb
  · exact Hex.digit_ne_newline _ (by omega) hb.symm
  · exact Hex.digit_ne_newline _ (by omega) hb.symm

theorem length_sha256Hex (text : String) : (sha256Hex text).toList.length = 64 := by
  rw [sha256Hex, Hex.encode, String.toList_ofList, Hex.length_flatMap_encodeByte]
  simp [Sha256.State.bytes, Sha256.State.words]

/-! ## Rewards and headers -/

theorem Reward.text_injective {r s : Reward} (h : r.text = s.text) : r = s := by
  obtain ⟨miner, amount⟩ := r
  obtain ⟨miner', amount'⟩ := s
  have hl := congrArg String.toList h
  simp only [Reward.text, String.toList_append] at hl
  have hl := List.append_cancel_right hl
  have hb : " gets ".toList = " gets".toList ++ [' '] := by decide
  rw [hb, ← List.append_assoc, ← List.append_assoc, List.append_assoc, List.append_assoc _ [' '],
    List.singleton_append, List.singleton_append] at hl
  obtain ⟨hm, ha⟩ := append_cons_inj_of_last (not_mem_toString_nat (by decide) _)
    (not_mem_toString_nat (by decide) _) hl
  rw [String.toList_inj.mp (List.append_cancel_right hm), UInt64.toNat_inj.mp (toString_nat_inj ha)]

/-- The text of a reward ends in a letter, and the letter tells whether there is any. -/
theorem Reward.textOf_eq_snoc (r : Option Reward) :
    ∃ stem c, (Reward.textOf r).toList = stem ++ [c] ∧ ¬ Numeral c ∧ (c = 'C' ↔ r.isSome) := by
  cases r with
  | none => exact ⟨"No rewar".toList, 'd', by decide, by decide, by decide⟩
  | some r =>
    have hc : " VC".toList = " V".toList ++ ['C'] := by decide
    refine ⟨(r.miner ++ " gets " ++ toString r.amount.toNat ++ " V").toList, 'C', ?_, by decide,
      by simp⟩
    simp only [Reward.textOf, Reward.text, String.toList_append, hc, List.append_assoc]

theorem Reward.textOf_injective {r s : Option Reward}
    (h : Reward.textOf r = Reward.textOf s) : r = s := by
  obtain ⟨stem, c, hr, -, hrc⟩ := Reward.textOf_eq_snoc r
  obtain ⟨stem', c', hs, -, hsc⟩ := Reward.textOf_eq_snoc s
  rw [h, hs] at hr
  obtain ⟨-, hcc⟩ := List.append_inj' hr rfl
  obtain rfl := List.head_eq_of_cons_eq hcc
  have hsome : r.isSome ↔ s.isSome := hrc.symm.trans hsc
  cases r with
  | none =>
    cases s with
    | none => rfl
    | some s => simp at hsome
  | some r =>
    cases s with
    | none => simp at hsome
    | some s => exact congrArg some (Reward.text_injective h)

/-- Time and nonce of a header, as they are hashed. -/
def Header.stamp (h : Header) : String := toString h.timestamp.toInt ++ toString h.nonce.toNat

/-- All the numbers of a header, as they are hashed. -/
def Header.numbers (h : Header) : String := toString h.height.toNat ++ h.stamp

theorem Header.text_eq (h : Header) :
    h.text = Reward.textOf h.reward ++ h.numbers ++ (h.previousHash ++ h.digest) := by
  simp only [Header.text, Header.numbers, Header.stamp, String.append_assoc]

theorem Header.numeral_of_mem_numbers {h : Header} {c : Char} (hc : c ∈ h.numbers.toList) :
    Numeral c := by
  simp only [Header.numbers, Header.stamp, String.toList_append, List.mem_append] at hc
  rcases hc with hc | hc | hc
  · exact numeral_of_mem_toString_nat hc
  · exact numeral_of_mem_toString_int hc
  · exact numeral_of_mem_toString_nat hc

/-- What a header's text tells, once the lengths of the two hashes in it are known. -/
theorem Header.text_inj {h k : Header}
    (hp : h.previousHash.toList.length = k.previousHash.toList.length)
    (hd : h.digest.toList.length = k.digest.toList.length) (ht : h.text = k.text) :
    h.reward = k.reward ∧ h.numbers = k.numbers ∧ h.previousHash = k.previousHash ∧
      h.digest = k.digest := by
  have hl := congrArg String.toList ht
  simp only [Header.text_eq, String.toList_append, ← List.append_assoc] at hl
  obtain ⟨hl, hde⟩ := List.append_inj' hl hd
  obtain ⟨hl, hpe⟩ := List.append_inj' hl hp
  -- What is left is the reward and three numbers, and no number has a letter in it.
  obtain ⟨stem, c, he, hc, -⟩ := Reward.textOf_eq_snoc h.reward
  obtain ⟨stem', c', he', hc', -⟩ := Reward.textOf_eq_snoc k.reward
  rw [he, he'] at hl
  simp only [List.append_assoc, List.singleton_append] at hl
  obtain ⟨hstem, hcc, hn⟩ := append_cons_inj_of_forall_right
    (fun _ hm => Header.numeral_of_mem_numbers hm) (fun _ hm => Header.numeral_of_mem_numbers hm)
    hc hc' hl
  have hr : Reward.textOf h.reward = Reward.textOf k.reward :=
    String.toList_inj.mp (by rw [he, he', hstem, hcc])
  exact ⟨Reward.textOf_injective hr, String.toList_inj.mp hn, String.toList_inj.mp hpe,
    String.toList_inj.mp hde⟩

/-- The numbers of a header do run into each other. -/
example : Header.text ⟨some ⟨"FC", 100⟩, 1, 23, 4, "0", "d"⟩ =
    Header.text ⟨some ⟨"FC", 100⟩, 12, 3, 4, "0", "d"⟩ := by decide

/-! ## Transactions and digests -/

/-- Written with the letters and digits of base 58, as every address of a key is. -/
def Base58.Spelled (name : String) : Prop := ∀ c ∈ name.toList, c ∈ Base58.alphabet

instance (name : String) : Decidable (Base58.Spelled name) :=
  List.decidableBAll (· ∈ Base58.alphabet) name.toList

theorem Base58.Spelled.not_mem {name : String} (h : Base58.Spelled name) {c : Char}
    (hc : c ∉ Base58.alphabet) : c ∉ name.toList := fun hm => hc (h c hm)

/-- The sender ends at the first blank, the amount at the next one and the receiver at the end of
the line. -/
theorem Transaction.text_inj {t u : Transaction} (ht : Base58.Spelled t.sender)
    (hu : Base58.Spelled u.sender) (htr : Base58.Spelled t.receiver)
    (hur : Base58.Spelled u.receiver) (h : t.text = u.text) :
    t.transfer = u.transfer ∧ t.timestamp = u.timestamp := by
  obtain ⟨⟨sender, receiver, amount⟩, timestamp, _, _⟩ := t
  obtain ⟨⟨sender', receiver', amount'⟩, timestamp', _, _⟩ := u
  have hsent : " sent ".toList = ' ' :: "sent ".toList := by decide
  have hto : " VC to ".toList = ' ' :: "VC to ".toList := by decide
  have hline : "\n".toList = ['\n'] := by decide
  have hl := congrArg String.toList h
  simp only [Transaction.text, Transaction.signedText, Transfer.text, String.toList_append, hsent,
    hto, hline, List.append_assoc, List.cons_append, List.nil_append] at hl
  obtain ⟨hs, hl⟩ := append_cons_inj_of_first (ht.not_mem (by decide)) (hu.not_mem (by decide)) hl
  obtain ⟨ha, hl⟩ := append_cons_inj_of_first (not_mem_toString_nat (by decide) _)
    (not_mem_toString_nat (by decide) _) (List.append_cancel_left hl)
  obtain ⟨hr, hm⟩ := append_cons_inj_of_first (htr.not_mem (by decide)) (hur.not_mem (by decide))
    (List.append_cancel_left hl)
  obtain rfl := String.toList_inj.mp hs
  obtain rfl := UInt64.toNat_inj.mp (toString_nat_inj ha)
  obtain rfl := String.toList_inj.mp hr
  exact ⟨rfl, Int64.toInt_inj.mp (toString_int_inj hm)⟩

/-- The lines of the text that a digest is the hash of. -/
theorem splitOn_digestText {ts : List Transaction} (h : ts ≠ []) :
    (digestText ts).toList.splitOn '\n' =
      (ts.map fun t => sha256Hex t.text).map String.toList := by
  have hd : digestText ts = "\n".intercalate (ts.map fun t => sha256Hex t.text) := by
    cases ts with
    | nil => exact absurd rfl h
    | cons t ts => rfl
  have hn : ∀ line ∈ (ts.map fun t => sha256Hex t.text).map String.toList, '\n' ∉ line := by
    simp only [List.forall_mem_map]
    exact fun t _ => Hex.newline_not_mem_encode _
  rw [hd, String.toList_intercalate]
  exact List.splitOn_intercalate '\n' hn (by simpa using h)

/-- What stands for no transactions is too short for a hash. -/
theorem digestText_ne_empty {ts : List Transaction} (h : ts ≠ []) :
    digestText ts ≠ digestText [] := by
  intro he
  have hs := splitOn_digestText h
  have hn : (digestText []).toList.splitOn '\n' = ["No transactions".toList] := by decide
  rw [he, hn, List.map_map] at hs
  obtain ⟨t, _, ht⟩ := List.map_eq_singleton_iff.mp hs.symm
  have hl := congrArg List.length ht
  rw [Function.comp_apply, length_sha256Hex] at hl
  exact absurd hl (by decide)

/-- The text under a digest tells the hash of each transaction, and whether there is any. -/
theorem hashes_eq_of_digestText_eq {ts us : List Transaction} (h : digestText ts = digestText us) :
    ts.map (fun t => sha256Hex t.text) = us.map fun u => sha256Hex u.text := by
  by_cases ht : ts = []
  · by_cases hu : us = []
    · rw [ht, hu]
    · rw [ht] at h
      exact absurd h.symm (digestText_ne_empty hu)
  · by_cases hu : us = []
    · rw [hu] at h
      exact absurd h (digestText_ne_empty ht)
    · have hs := splitOn_digestText ht
      rw [h, splitOn_digestText hu] at hs
      exact ((List.map_inj_right fun _ _ he => String.toList_inj.mp he).mp hs).symm

end WorkLedger
