import WorkLedger.Json.Printer
import WorkLedger.Json.Reader
import WorkLedger.Proofs.Commitment.Texts
import WorkLedger.Proofs.Json.Quoted

/-! Documents, printed and read. A value is read up to where its own text ends, so in front of
whatever cannot go on with a number it is the value that was printed, and the reader is left with
the rest. Each call of the reader is on a shorter text or on the same one once, so twice the length
of the text bounds how deep the calls go. -/

namespace WorkLedger.Json

/-! ## Numbers -/

/-- Text that no number goes on with. -/
def Stops (rest : List Char) : Prop :=
  ∀ c ∈ rest.head?, c.isDigit = false ∧ c ≠ '.' ∧ c ≠ 'e' ∧ c ≠ 'E'

theorem stops_nil : Stops [] := fun c hc => by cases hc

theorem stops_newline (depth : Nat) (rest : List Char) : Stops (newline depth ++ rest) := by
  intro c hc
  obtain rfl : '\n' = c := Option.some.inj hc
  decide

theorem stops_comma (rest : List Char) : Stops (',' :: rest) := by
  intro c hc
  obtain rfl : ',' = c := Option.some.inj hc
  decide

theorem digitsValue_toDigits (n : Nat) : digitsValue (Nat.toDigits 10 n) = n := by
  have h : digitsValue (Nat.toDigits 10 n) = Nat.ofDigitChars 10 (Nat.toDigits 10 n) 0 := rfl
  rw [h, Nat.ofDigitChars_ten_toDigits]

theorem Stops.takeWhile_dropWhile {rest : List Char} (hs : Stops rest) :
    rest.takeWhile Char.isDigit = [] ∧ rest.dropWhile Char.isDigit = rest := by
  cases rest with
  | nil => exact ⟨rfl, rfl⟩
  | cons c rest =>
    obtain ⟨hc, _⟩ := hs c rfl
    simp [hc]

theorem digits?_append {ds rest : List Char} (hne : ds ≠ []) (hd : ∀ c ∈ ds, c.isDigit = true)
    (hs : Stops rest) : digits? (ds ++ rest) = some (ds, rest) := by
  obtain ⟨htake, hdrop⟩ := hs.takeWhile_dropWhile
  unfold digits?
  rw [List.takeWhile_append_of_pos hd, List.dropWhile_append_of_pos hd, htake, hdrop,
    List.append_nil]
  split
  · contradiction
  · rfl

theorem natural?_toDigits (n : Nat) {rest : List Char} (hs : Stops rest) :
    natural? (Nat.toDigits 10 n ++ rest) = some (Nat.toDigits 10 n, rest) := by
  have hd : ∀ c ∈ Nat.toDigits 10 n, c.isDigit = true := fun c hc =>
    Nat.isDigit_of_mem_toDigits (by decide) (by decide) hc
  -- Only the number zero begins with a zero, and it has no other digit.
  have hz : ¬((Nat.toDigits 10 n).head? == some '0' && (Nat.toDigits 10 n).length ≠ 1) = true := by
    rw [Bool.and_eq_true, beq_iff_eq, decide_eq_true_eq]
    rintro ⟨hhead, hlength⟩
    rw [eq_zero_of_head?_toDigits hhead] at hlength
    exact hlength rfl
  rw [natural?, digits?_append Nat.toDigits_ne_nil hd hs]
  exact if_neg hz

theorem Stops.skip {rest : List Char} (hs : Stops rest) :
    (skipFraction? rest).bind skipExponent? = some rest := by
  cases rest with
  | nil => rfl
  | cons c rest =>
    obtain ⟨_, hpoint, he, hE⟩ := hs c rfl
    simp [skipFraction?, skipExponent?, hpoint, he, hE]

theorem unsignedNumber?_toDigits (negative : Bool) {n : Nat} (hz : negative = true → n ≠ 0)
    {rest : List Char} (hs : Stops rest) :
    unsignedNumber? negative (Nat.toDigits 10 n ++ rest) =
      some (.integer (if negative then -n else n), rest) := by
  have hreal : ¬(rest.length < rest.length ∨ (negative = true ∧ n = 0)) := by
    rintro (hl | ⟨hn, h0⟩)
    · exact Nat.lt_irrefl _ hl
    · exact hz hn h0
  rw [unsignedNumber?, natural?_toDigits n hs]
  simp only [Option.bind_eq_bind, Option.bind_some, hs.skip, digitsValue_toDigits, if_neg hreal]
  rfl

theorem exists_toDigits_eq_cons (n : Nat) :
    ∃ c cs, Nat.toDigits 10 n = c :: cs ∧ c.isDigit = true := by
  obtain ⟨c, cs, h⟩ := List.exists_cons_of_ne_nil (Nat.toDigits_ne_nil (b := 10) (n := n))
  exact ⟨c, cs, h, Nat.isDigit_of_mem_toDigits (by decide) (by decide) (h ▸ List.mem_cons_self)⟩

theorem number?_toString (i : Int) {rest : List Char} (hs : Stops rest) :
    number? ((toString i).toList ++ rest) = some (.integer i, rest) := by
  cases i with
  | ofNat n =>
    have ht : (toString (Int.ofNat n)).toList = Nat.toDigits 10 n := by
      change (toString n).toList = _
      rw [Nat.toString_eq_ofList_toDigits, String.toList_ofList]
    obtain ⟨c, cs, hc, hd⟩ := exists_toDigits_eq_cons n
    rw [ht, number?, unsignedNumber?_toDigits false (fun h => nomatch h) hs]
    · rfl
    · -- A digit is no sign.
      intro behind he
      rw [hc] at he
      obtain rfl : c = '-' := List.head_eq_of_cons_eq he
      cases hd
  | negSucc n =>
    rw [toList_toString_negSucc, Nat.toString_eq_ofList_toDigits, String.toList_ofList,
      List.cons_append, number?, unsignedNumber?_toDigits true (fun _ => Nat.succ_ne_zero n) hs]
    rfl

theorem exists_toString_eq_cons (i : Int) :
    ∃ c cs, (toString i).toList = c :: cs ∧ Numeral c := by
  cases i with
  | ofNat n =>
    obtain ⟨c, cs, hc⟩ := List.exists_cons_of_ne_nil (toList_toString_nat_ne_nil n)
    exact ⟨c, cs, hc, numeral_of_mem_toString_nat (hc ▸ List.mem_cons_self)⟩
  | negSucc n => exact ⟨'-', _, toList_toString_negSucc n, .inr rfl⟩

theorem ne_of_numeral {c d : Char} (hc : Numeral c) (hd : ¬ Numeral d) : c ≠ d := fun h =>
  hd (h ▸ hc)

/-! ## What a value begins with -/

/-- A text that is closed where the printer closes it. -/
def Closed (written : List Char) : Prop :=
  ∀ rest, closeQuote? (written ++ '"' :: rest) = some (written, rest)

theorem closed_escape (cs : List Char) : Closed (escape cs) := closeQuote?_escape cs

/-- Values without numbers that are kept as they were written, and with texts that are closed. -/
inductive Plain : Value → Prop
  | null : Plain .null
  | boolean (b : Bool) : Plain (.boolean b)
  | integer (n : Int) : Plain (.integer n)
  | string {written : List Char} (h : Closed written) : Plain (.string written)
  | array {items : List Value} (h : ∀ v ∈ items, Plain v) : Plain (.array items)
  | object {members : List (List Char × Value)} (hk : ∀ m ∈ members, Closed m.1)
      (h : ∀ m ∈ members, Plain m.2) : Plain (.object members)

/-- The first character of a value is no space, and closes nothing. -/
theorem exists_print_eq_cons {v : Value} (h : Plain v) (depth : Nat) :
    ∃ c cs, v.print depth = c :: cs ∧ isSpace c = false ∧ c ≠ ']' ∧ c ≠ '\x7d' := by
  cases h with
  | null => exact ⟨'n', _, rfl, by decide⟩
  | boolean b => cases b <;> exact ⟨_, _, rfl, by decide⟩
  | integer n =>
    obtain ⟨c, cs, hc, hn⟩ := exists_toString_eq_cons n
    refine ⟨c, cs, hc, ?_, ne_of_numeral hn (by decide), ne_of_numeral hn (by decide)⟩
    simp [isSpace, ne_of_numeral hn (by decide : ¬ Numeral ' '),
      ne_of_numeral hn (by decide : ¬ Numeral '\n'), ne_of_numeral hn (by decide : ¬ Numeral '\t'),
      ne_of_numeral hn (by decide : ¬ Numeral '\r')]
  | string h => exact ⟨'"', _, rfl, by decide⟩
  | @array items h => cases items <;> exact ⟨'[', _, rfl, by decide⟩
  | @object members hk h =>
    cases members <;> exact ⟨'\x7b', _, rfl, by decide⟩

theorem value?_of_numeral (fuel : Nat) {c : Char} (hc : Numeral c) (cs : List Char) :
    value? (fuel + 1) (c :: cs) = number? (c :: cs) := by
  rw [value?]
  all_goals exact fun _ he => ne_of_numeral hc (by decide) (List.head_eq_of_cons_eq he)

theorem skipSpace_cons {c : Char} (h : isSpace c = false) (cs : List Char) :
    skipSpace (c :: cs) = c :: cs :=
  List.dropWhile_cons_of_neg (by simp [h])

theorem skipSpace_blank (cs : List Char) : skipSpace (' ' :: cs) = skipSpace cs := rfl

theorem skipSpace_newline (depth : Nat) (cs : List Char) :
    skipSpace (newline depth ++ cs) = skipSpace cs := by
  refine List.dropWhile_append_of_pos fun c hc => ?_
  rcases List.mem_cons.mp hc with rfl | hc
  · rfl
  · rw [List.eq_of_mem_replicate hc]
    rfl

theorem skipSpace_print {v : Value} (h : Plain v) (depth : Nat) (rest : List Char) :
    skipSpace (v.print depth ++ rest) = v.print depth ++ rest := by
  obtain ⟨c, cs, hc, hs, _⟩ := exists_print_eq_cons h depth
  rw [hc, List.cons_append, skipSpace_cons hs]

/-! ## What the reader does at a bracket, a brace and a comma -/

variable {fuel : Nat} {cs rest after : List Char} {value : Value}

theorem value?_bracket (h : ∀ after, skipSpace cs ≠ ']' :: after) :
    value? (fuel + 1) ('[' :: cs) =
      (items? fuel (skipSpace cs)).map fun (items, rest) => (.array items, rest) := by
  rw [value?]
  split
  · rename_i after he
    exact absurd he (h after)
  · rfl

theorem value?_brace (h : ∀ after, skipSpace cs ≠ '\x7d' :: after) :
    value? (fuel + 1) ('\x7b' :: cs) =
      (members? fuel (skipSpace cs)).map fun (members, rest) => (.object members, rest) := by
  rw [value?]
  split
  · rename_i after he
    exact absurd he (h after)
  · rfl

theorem items?_of_bracket (hv : value? fuel cs = some (value, rest))
    (hs : skipSpace rest = ']' :: after) : items? (fuel + 1) cs = some ([value], after) := by
  rw [items?, hv]
  dsimp only
  rw [hs]
  rfl

theorem items?_of_comma (hv : value? fuel cs = some (value, rest))
    (hs : skipSpace rest = ',' :: after) :
    items? (fuel + 1) cs =
      (items? fuel (skipSpace after)).map fun (items, rest) => (value :: items, rest) := by
  rw [items?, hv]
  dsimp only
  rw [hs]
  rfl

/-- What the reader does with a member goes by what is behind its value. -/
theorem members?_quote {key : List Char} (hk : closeQuote? cs = some (key, ':' :: after))
    (hv : value? fuel (skipSpace after) = some (value, rest)) :
    members? (fuel + 1) ('"' :: cs) =
      match skipSpace rest with
      | '\x7d' :: rest => some ([(key, value)], rest)
      | ',' :: rest =>
        (members? fuel (skipSpace rest)).map fun (members, rest) => ((key, value) :: members, rest)
      | _ => none := by
  rw [members?, hk]
  dsimp only
  rw [skipSpace_cons (by decide)]
  split
  · rename_i after' he
    obtain rfl : after = after' := List.tail_eq_of_cons_eq he
    exact hv ▸ rfl
  · rename_i h
    exact absurd rfl (h after)

theorem members?_of_brace {key : List Char} (hk : closeQuote? cs = some (key, ':' :: after))
    (hv : value? fuel (skipSpace after) = some (value, rest)) {behind : List Char}
    (hs : skipSpace rest = '\x7d' :: behind) :
    members? (fuel + 1) ('"' :: cs) = some ([(key, value)], behind) := by
  rw [members?_quote hk hv, hs]
  rfl

theorem members?_of_comma {key : List Char} (hk : closeQuote? cs = some (key, ':' :: after))
    (hv : value? fuel (skipSpace after) = some (value, rest)) {behind : List Char}
    (hs : skipSpace rest = ',' :: behind) :
    members? (fuel + 1) ('"' :: cs) =
      (members? fuel (skipSpace behind)).map
        fun (members, rest) => ((key, value) :: members, rest) := by
  rw [members?_quote hk hv, hs]
  rfl

/-! ## Values -/

/-- The value is read in front of whatever cannot go on with a number. -/
def ReadsBack (v : Value) : Prop :=
  ∀ depth fuel rest, Stops rest → 2 * (v.print depth ++ rest).length < fuel →
    value? fuel (v.print depth ++ rest) = some (v, rest)

/-- The bound leaves a step for the value itself. -/
theorem readsBack_of_succ {v : Value}
    (h : ∀ depth fuel rest, Stops rest → 2 * (v.print depth ++ rest).length < fuel + 1 →
      value? (fuel + 1) (v.print depth ++ rest) = some (v, rest)) : ReadsBack v := by
  intro depth fuel rest hs hf
  obtain ⟨fuel, rfl⟩ := Nat.exists_eq_add_one_of_ne_zero (Nat.ne_zero_of_lt hf)
  exact h depth fuel rest hs hf

/-- Items are read from the first to the closing bracket. -/
theorem items?_print (fuel : Nat) {item : Value} {items : List Value}
    (hp : ∀ v ∈ item :: items, Plain v)
    (hr : ∀ v ∈ item :: items, ReadsBack v) (depth outer : Nat) (rest : List Char)
    (hf : 2 * (item.print depth ++
      (printItems depth items ++ (newline outer ++ ']' :: rest))).length + 1 < fuel) :
    items? fuel (item.print depth ++ (printItems depth items ++ (newline outer ++ ']' :: rest))) =
      some (item :: items, rest) := by
  induction items generalizing item fuel with
  | nil =>
    obtain ⟨fuel, rfl⟩ := Nat.exists_eq_add_one_of_ne_zero (Nat.ne_zero_of_lt hf)
    have hv := hr item List.mem_cons_self depth fuel _ (stops_newline outer (']' :: rest))
      (Nat.lt_of_succ_lt_succ hf)
    exact items?_of_bracket hv (skipSpace_newline outer _)
  | cons next items ih =>
    obtain ⟨fuel, rfl⟩ := Nat.exists_eq_add_one_of_ne_zero (Nat.ne_zero_of_lt hf)
    obtain ⟨_, hpnext⟩ := List.forall_mem_cons.mp hp
    obtain ⟨hritem, hrnext⟩ := List.forall_mem_cons.mp hr
    simp only [printItems, List.cons_append, List.append_assoc] at hf ⊢
    have hv := hritem depth fuel _ (stops_comma _) (Nat.lt_of_succ_lt_succ hf)
    have hnext := ih fuel hpnext hrnext (by
      simp only [List.length_append, List.length_cons] at hf ⊢
      omega)
    rw [items?_of_comma hv (skipSpace_cons (by decide) _), skipSpace_newline,
      skipSpace_print (hpnext next List.mem_cons_self), hnext]
    rfl

/-- A member as it is printed, in front of the rest. -/
def memberText (depth : Nat) (m : List Char × Value) (rest : List Char) : List Char :=
  '"' :: (m.1 ++ '"' :: ':' :: ' ' :: (m.2.print depth ++ rest))

theorem value?_member {m : List Char × Value} (hp : Plain m.2) (hr : ReadsBack m.2) (depth : Nat)
    (hs : Stops rest) (hf : 2 * (memberText depth m rest).length < fuel) :
    value? fuel (skipSpace (' ' :: (m.2.print depth ++ rest))) = some (m.2, rest) := by
  rw [skipSpace_blank, skipSpace_print hp]
  refine hr depth fuel rest hs ?_
  simp only [memberText, List.length_append, List.length_cons] at hf ⊢
  omega

/-- Members are read from the first to the closing brace. -/
theorem members?_print (fuel : Nat) {m : List Char × Value} {members : List (List Char × Value)}
    (hk : ∀ m' ∈ m :: members, Closed m'.1) (hp : ∀ m' ∈ m :: members, Plain m'.2)
    (hr : ∀ m' ∈ m :: members, ReadsBack m'.2) (depth outer : Nat) (rest : List Char)
    (hf : 2 * (memberText depth m
      (printMembers depth members ++ (newline outer ++ '\x7d' :: rest))).length + 1 < fuel) :
    members? fuel (memberText depth m
      (printMembers depth members ++ (newline outer ++ '\x7d' :: rest))) =
      some (m :: members, rest) := by
  induction members generalizing m fuel with
  | nil =>
    obtain ⟨fuel, rfl⟩ := Nat.exists_eq_add_one_of_ne_zero (Nat.ne_zero_of_lt hf)
    have hkey := hk m List.mem_cons_self
    have hv := value?_member (hp m List.mem_cons_self) (hr m List.mem_cons_self) depth
      (stops_newline outer ('\x7d' :: rest)) (Nat.lt_of_succ_lt_succ hf)
    exact members?_of_brace (hkey _) hv (skipSpace_newline outer _)
  | cons next members ih =>
    obtain ⟨fuel, rfl⟩ := Nat.exists_eq_add_one_of_ne_zero (Nat.ne_zero_of_lt hf)
    obtain ⟨hkey, hknext⟩ := List.forall_mem_cons.mp hk
    obtain ⟨hpm, hpnext⟩ := List.forall_mem_cons.mp hp
    obtain ⟨hrm, hrnext⟩ := List.forall_mem_cons.mp hr
    have ht : printMembers depth (next :: members) ++ (newline outer ++ '\x7d' :: rest) =
        ',' :: (newline depth ++ memberText depth next
          (printMembers depth members ++ (newline outer ++ '\x7d' :: rest))) := by
      simp only [printMembers, quoted, memberText, List.cons_append, List.append_assoc,
        List.nil_append]
    rw [ht] at hf ⊢
    have hv := value?_member hpm hrm depth (stops_comma _) (Nat.lt_of_succ_lt_succ hf)
    have hnext := ih fuel hknext hpnext hrnext (by
      rw [memberText] at hf
      simp only [List.length_append, List.length_cons] at hf ⊢
      omega)
    rw [memberText, members?_of_comma (hkey _) hv (skipSpace_cons (by decide) _),
      skipSpace_newline, memberText, skipSpace_cons (by decide), ← memberText, hnext]
    rfl

theorem readsBack_of_plain {v : Value} (h : Plain v) : ReadsBack v := by
  induction h with
  | null =>
    exact readsBack_of_succ fun depth fuel rest _ _ => rfl
  | boolean b =>
    refine readsBack_of_succ fun depth fuel rest _ _ => ?_
    cases b <;> rfl
  | integer n =>
    refine readsBack_of_succ fun depth fuel rest hs _ => ?_
    obtain ⟨c, cs, hc, hn⟩ := exists_toString_eq_cons n
    rw [Value.print, ← number?_toString n hs, hc, List.cons_append, value?_of_numeral fuel hn]
  | @string written h =>
    refine readsBack_of_succ fun depth fuel rest _ _ => ?_
    rw [Value.print, quoted, List.cons_append, List.append_assoc, List.singleton_append, value?,
      h rest]
    rfl
  | @array items h ih =>
    refine readsBack_of_succ fun depth fuel rest _ hf => ?_
    cases items with
    | nil => rfl
    | cons item items =>
      have hitem := h item List.mem_cons_self
      simp only [Value.print, List.cons_append, List.append_assoc, List.nil_append] at hf ⊢
      have hitems := items?_print fuel h ih (depth + 1) depth rest (by
        simp only [List.length_append, List.length_cons] at hf ⊢
        omega)
      rw [value?_bracket, skipSpace_newline, skipSpace_print hitem, hitems]
      · rfl
      · -- An item does not begin with the closing bracket.
        intro after he
        obtain ⟨c, cs, hc, hs, hbracket, _⟩ := exists_print_eq_cons hitem (depth + 1)
        rw [skipSpace_newline, hc, List.cons_append, skipSpace_cons hs] at he
        exact hbracket (List.head_eq_of_cons_eq he)
  | @object members hk h ih =>
    refine readsBack_of_succ fun depth fuel rest _ hf => ?_
    cases members with
    | nil => rfl
    | cons m members =>
      obtain ⟨key, value⟩ := m
      have ht : (Value.object ((key, value) :: members)).print depth ++ rest =
          '\x7b' :: (newline (depth + 1) ++ memberText (depth + 1) (key, value)
            (printMembers (depth + 1) members ++ (newline depth ++ '\x7d' :: rest))) := by
        simp only [Value.print, quoted, memberText, List.cons_append, List.append_assoc,
          List.nil_append]
      rw [ht] at hf ⊢
      have hmembers := members?_print fuel hk h ih (depth + 1) depth rest (by
        simp only [List.length_append, List.length_cons] at hf ⊢
        omega)
      have hs : skipSpace (newline (depth + 1) ++ memberText (depth + 1) (key, value)
          (printMembers (depth + 1) members ++ (newline depth ++ '\x7d' :: rest))) =
          memberText (depth + 1) (key, value)
            (printMembers (depth + 1) members ++ (newline depth ++ '\x7d' :: rest)) :=
        skipSpace_newline (depth + 1) _
      rw [value?_brace, hs, hmembers]
      · rfl
      · intro after he
        rw [hs] at he
        exact absurd (List.head_eq_of_cons_eq he) (by decide)

/-- A document is read as the value that was printed. -/
theorem ofText?_text {v : Value} (h : Plain v) : Value.ofText? v.text = some v := by
  have hv := readsBack_of_plain h 0 (2 * (v.print 0).length + 2) [] stops_nil (by
    rw [List.append_nil]
    omega)
  have hs := skipSpace_print h 0 []
  rw [List.append_nil] at hv hs
  rw [Value.ofText?, Value.text, String.toList_ofList]
  simp only [hs, hv]
  rfl

end WorkLedger.Json
