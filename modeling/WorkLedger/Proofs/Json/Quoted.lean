import WorkLedger.Json.Quoted

/-! Escaped texts. What is written between quotes for a text has no quote of its own in it, so the
closing quote is found where it was put; and read back it is the text again, character by character.
A character is never half of a surrogate pair, which is why no two of them are taken together. -/

namespace WorkLedger.Json

theorem hexValue?_hexDigit : ∀ n < 16, hexValue? (hexDigit n) = some n := by decide

/-- Four digits for a number that needs two. -/
theorem unit?_hexDigits {n : Nat} (h : n < 256) :
    unit? '0' '0' (hexDigit (n / 16)) (hexDigit (n % 16)) = some n := by
  have hhigh := hexValue?_hexDigit (n / 16) (by omega)
  have hlow := hexValue?_hexDigit (n % 16) (by omega)
  have hzero : hexValue? '0' = some 0 := by decide
  simp only [unit?, hhigh, hlow, hzero, Option.bind_eq_bind, Option.bind_some, Option.pure_def,
    Option.some.injEq]
  omega

/-! ## One character -/

/-- The ways a character is written: behind a backslash with a letter that stands for it, by number,
or as it is. -/
theorem escapeChar_cases (c : Char) :
    (∃ letter, escapeChar c = ['\\', letter] ∧ letter ≠ 'u' ∧ escaped? letter = some c) ∨
      (c.toNat < 32 ∧ escapeChar c =
        ['\\', 'u', '0', '0', hexDigit (c.toNat / 16), hexDigit (c.toNat % 16)]) ∨
      (escapeChar c = [c] ∧ c ≠ '"' ∧ c ≠ '\\' ∧ 32 ≤ c.toNat) := by
  unfold escapeChar
  split
  · subst_vars; exact .inl ⟨'"', rfl, by decide, rfl⟩
  split
  · subst_vars; exact .inl ⟨'\\', rfl, by decide, rfl⟩
  split
  · subst_vars; exact .inl ⟨'b', rfl, by decide, rfl⟩
  split
  · subst_vars; exact .inl ⟨'f', rfl, by decide, rfl⟩
  split
  · subst_vars; exact .inl ⟨'n', rfl, by decide, rfl⟩
  split
  · subst_vars; exact .inl ⟨'r', rfl, by decide, rfl⟩
  split
  · subst_vars; exact .inl ⟨'t', rfl, by decide, rfl⟩
  split
  · rename_i hc
    exact .inr (.inl ⟨hc, rfl⟩)
  · rename_i hquote hslash _ _ _ _ _ hc
    exact .inr (.inr ⟨rfl, hquote, hslash, Nat.le_of_not_lt hc⟩)

theorem units?_escapeChar (c : Char) (rest : List Char) :
    units? (escapeChar c ++ rest) = (units? rest).map (c.toNat :: ·) := by
  rcases escapeChar_cases c with ⟨letter, he, hu, hl⟩ | ⟨hc, he⟩ | ⟨he, _, hslash, _⟩
  · rw [he, List.cons_append, List.singleton_append, units?, hl]
    · cases units? rest <;> rfl
    · simp [hu]
  · rw [he]
    simp only [List.cons_append, List.nil_append]
    rw [units?, unit?_hexDigits (Nat.lt_trans hc (by decide))]
    cases units? rest <;> rfl
  · rw [he, List.singleton_append, units?]
    · cases units? rest <;> rfl
    · simp [hslash]
    · simp [hslash]

/-- The closing quote is not found before the character ends. -/
theorem closeQuote?_escapeChar (c : Char) (rest : List Char) :
    closeQuote? (escapeChar c ++ rest) =
      (closeQuote? rest).map fun (written, rest) => (escapeChar c ++ written, rest) := by
  rcases escapeChar_cases c with ⟨letter, he, hu, hl⟩ | ⟨hc, he⟩ | ⟨he, hquote, hslash, hc⟩
  · rw [he, List.cons_append, List.singleton_append, closeQuote?, hl]
    · cases closeQuote? rest <;> rfl
    · simp [hu]
  · rw [he]
    simp only [List.cons_append, List.nil_append]
    rw [closeQuote?, unit?_hexDigits (Nat.lt_trans hc (by decide))]
    cases closeQuote? rest <;> rfl
  · rw [he, List.singleton_append, closeQuote?, if_neg (Nat.not_lt.mpr hc)]
    · cases closeQuote? rest <;> rfl
    · simp [hquote]
    · simp [hslash]
    · simp [hslash]

/-! ## Texts -/

theorem units?_escape (cs : List Char) : units? (escape cs) = some (cs.map Char.toNat) := by
  induction cs with
  | nil => rfl
  | cons c cs ih =>
    rw [escape, List.flatMap_cons, units?_escapeChar, ← escape, ih]
    rfl

theorem not_half (c : Char) : isHigh c.toNat = false ∧ isLow c.toNat = false := by
  have hv : c.toNat < 0xd800 ∨ (0xdfff < c.toNat ∧ c.toNat < 0x110000) := c.valid
  simp only [isHigh, isLow, Bool.and_eq_false_iff, decide_eq_false_iff_not]
  omega

theorem joinUnits?_map_toNat (cs : List Char) : joinUnits? (cs.map Char.toNat) = some cs := by
  induction cs with
  | nil => rfl
  | cons c cs ih =>
    obtain ⟨hhigh, hlow⟩ := not_half c
    cases cs with
    | nil => simp [joinUnits?, hhigh, hlow]
    | cons d cs =>
      rw [List.map_cons] at ih
      simp [joinUnits?, hhigh, hlow, ih]

theorem unescape?_escape (cs : List Char) : unescape? (escape cs) = some cs := by
  rw [unescape?, units?_escape, Option.bind_some, joinUnits?_map_toNat]

theorem closeQuote?_escape (cs rest : List Char) :
    closeQuote? (escape cs ++ '"' :: rest) = some (escape cs, rest) := by
  induction cs with
  | nil => rfl
  | cons c cs ih =>
    rw [escape, List.flatMap_cons, List.append_assoc, closeQuote?_escapeChar, ← escape, ih]
    rfl

end WorkLedger.Json
