import Mathlib.Data.Nat.Digits.Lemmas
import WorkLedger.Bytes.Base58
import WorkLedger.Proofs.Store.Codec

/-! Base 58, both ways. Bytes and letters are digits of one number in two bases, and the zeros that
lead the digits are carried over one by one, which the number alone would forget. Changing the base
and changing it back is then the identity in either direction. So all bytes can be written, what is
written is read as the bytes it stands for, and nothing else is read as them. -/

namespace WorkLedger

/-! ## Positional notation -/

namespace Radix

variable {base : Nat}

theorem digitsUp_eq (hb : 1 < base) {room n : Nat} (h : n < 2 ^ room) :
    digitsUp base room n = Nat.digits base n := by
  induction room generalizing n with
  | zero =>
    obtain rfl : n = 0 := Nat.lt_one_iff.mp h
    rw [Nat.digits_zero]
    rfl
  | succ room ih =>
    by_cases hn : n = 0
    · rw [hn, Nat.digits_zero, digitsUp, if_pos rfl]
    · have hq : n / base < 2 ^ room := by
        rw [Nat.pow_succ, Nat.mul_comm] at h
        exact Nat.div_lt_of_lt_mul (Nat.lt_of_lt_of_le h (Nat.mul_le_mul_right _ hb))
      rw [digitsUp, if_neg hn, ih hq, Nat.digits_def' hb (Nat.pos_of_ne_zero hn)]

theorem digits_eq (hb : 1 < base) (n : Nat) : digits base n = (Nat.digits base n).reverse := by
  rw [digits, digitsUp_eq hb Nat.lt_log2_self]

theorem value_eq (base : Nat) (ds : List Nat) : value base ds = Nat.ofDigits base ds.reverse := by
  rw [value, List.foldl_eq_foldr_reverse, Nat.ofDigits_eq_foldr]
  congr
  funext d acc
  rw [Nat.cast_id, Nat.add_comm, Nat.mul_comm]

theorem value_digits (hb : 1 < base) (n : Nat) : value base (digits base n) = n := by
  rw [value_eq, digits_eq hb, List.reverse_reverse, Nat.ofDigits_digits]

theorem lt_of_mem_digits (hb : 1 < base) {d n : Nat} (h : d ∈ digits base n) : d < base := by
  rw [digits_eq hb, List.mem_reverse] at h
  exact Nat.digits_lt_base hb h

/-- No number is written with a zero in front. -/
theorem head?_digits (hb : 1 < base) (n : Nat) : (digits base n).head? ≠ some 0 := by
  rw [digits_eq hb, List.head?_reverse]
  intro h
  have hne : Nat.digits base n ≠ [] := by
    intro he
    rw [he] at h
    cases h
  rw [List.getLast?_eq_some_getLast hne] at h
  exact Nat.getLast_digit_ne_zero base (Nat.digits_ne_nil_iff_ne_zero.mp hne) (Option.some.inj h)

theorem digits_value (hb : 1 < base) {ds : List Nat} (h : ∀ d ∈ ds, d < base)
    (hz : ds.head? ≠ some 0) : digits base (value base ds) = ds := by
  have hl : ∀ hne : ds.reverse ≠ [], ds.reverse.getLast hne ≠ 0 := by
    intro hne h0
    rw [← List.getLast?_reverse, List.getLast?_eq_some_getLast hne, h0] at hz
    exact hz rfl
  rw [digits_eq hb, value_eq, Nat.digits_ofDigits base hb _ (by simpa using h) hl,
    List.reverse_reverse]

/-- Zeros in front do not count. -/
theorem value_append {zeros : List Nat} (hz : ∀ d ∈ zeros, d = 0) (ds : List Nat) :
    value base (zeros ++ ds) = value base ds := by
  induction zeros with
  | nil => rfl
  | cons d zeros ih =>
    obtain ⟨rfl, hrest⟩ := List.forall_mem_cons.mp hz
    rw [← ih hrest, List.cons_append, value, List.foldl_cons, Nat.zero_mul]
    rfl

/-! ## Change of base -/

/-- The digits of a number in another base. Leading zeros stay as many as they are. -/
def rebase (source target : Nat) (ds : List Nat) : List Nat :=
  ds.takeWhile (· == 0) ++ digits target (value source ds)

theorem eq_zero_of_mem_leading {α : Type} [BEq α] [LawfulBEq α] [OfNat α 0] {d : α} {ds : List α}
    (h : d ∈ ds.takeWhile (· == 0)) : d = 0 :=
  eq_of_beq (List.all_eq_true.mp List.all_takeWhile d h)

theorem leading_append {zeros ds : List Nat} (hz : ∀ d ∈ zeros, d = 0) (h : ds.head? ≠ some 0) :
    (zeros ++ ds).takeWhile (· == 0) = zeros := by
  have hd : ds.takeWhile (· == 0) = [] := by
    cases ds with
    | nil => rfl
    | cons d ds => exact List.takeWhile_cons_of_neg (by simpa using h)
  rw [List.takeWhile_append_of_pos (by simpa using hz), hd, List.append_nil]

/-- The rest behind the leading zeros is what the number is written with. -/
theorem leading_append_digits_value (hb : 1 < base) {ds : List Nat} (h : ∀ d ∈ ds, d < base) :
    ds.takeWhile (· == 0) ++ digits base (value base ds) = ds := by
  have hsplit : ds.takeWhile (· == 0) ++ ds.dropWhile (· == 0) = ds :=
    List.takeWhile_append_dropWhile
  have hv : value base ds = value base (ds.dropWhile (· == 0)) := by
    rw [← value_append (fun d => eq_zero_of_mem_leading) (ds.dropWhile (· == 0)), hsplit]
  have hz : (ds.dropWhile (· == 0)).head? ≠ some 0 := by
    intro h0
    have hn := List.head?_dropWhile_not (· == 0) ds
    rw [h0] at hn
    cases hn
  rw [hv, digits_value hb (fun d hd => h d ((List.dropWhile_sublist _).subset hd)) hz, hsplit]

variable {source target : Nat} {ds : List Nat}

theorem lt_of_mem_rebase (ht : 1 < target) {d : Nat} (h : d ∈ rebase source target ds) :
    d < target := by
  rcases List.mem_append.mp h with h | h
  · rw [eq_zero_of_mem_leading h]
    exact Nat.zero_lt_of_lt ht
  · exact lt_of_mem_digits ht h

theorem rebase_rebase (hs : 1 < source) (ht : 1 < target) (h : ∀ d ∈ ds, d < source) :
    rebase target source (rebase source target ds) = ds := by
  have hz : ∀ d ∈ ds.takeWhile (· == 0), d = 0 := fun d => eq_zero_of_mem_leading
  have hv : value target (rebase source target ds) = value source ds := by
    rw [rebase, value_append hz, value_digits ht]
  have hl : (rebase source target ds).takeWhile (· == 0) = ds.takeWhile (· == 0) :=
    leading_append hz (head?_digits ht _)
  rw [rebase, hl, hv, leading_append_digits_value hs h]

end Radix

/-! ## Letters -/

namespace Base58

/-- The byte of a letter. -/
def letterByte (d : Nat) : UInt8 := UInt8.ofNat (letter d).toNat

theorem utf8_letter : ∀ d < 58, String.utf8EncodeChar (letter d) = [letterByte d] := by decide

theorem value?_letterByte : ∀ d < 58, letterByte d < 128 ∧ value? (letterByte d) = some d := by
  decide

theorem value?_eq_some {b : UInt8} {d : Nat} (h : value? b = some d) :
    d < 58 ∧ b = letterByte d := by
  obtain ⟨hd, hb, _⟩ := List.findIdx?_eq_some_iff_getElem.mp h
  refine ⟨hd, ?_⟩
  rw [letterByte, letter, List.getD_eq_getElem?_getD, List.getElem?_eq_getElem hd, Option.getD_some,
    eq_of_beq hb, UInt8.ofNat_toNat]

theorem ofText_ofList_letters {ds : List Nat} (h : ∀ d ∈ ds, d < 58) :
    Bytes.ofText (String.ofList (ds.map letter)) = ds.map letterByte := by
  have hu : (ds.map letter).flatMap String.utf8EncodeChar = ds.map letterByte := by
    induction ds with
    | nil => rfl
    | cons d ds ih =>
      obtain ⟨hd, hds⟩ := List.forall_mem_cons.mp h
      rw [List.map_cons, List.flatMap_cons, utf8_letter d hd, ih hds, List.map_cons,
        List.singleton_append]
  rw [← hu]
  simp [Bytes.ofText, String.toUTF8, String.ofList, List.utf8Encode]

theorem readDigits_letterBytes {ds : List Nat} (h : ∀ d ∈ ds, d < 58) (position : Nat) :
    readDigits position (ds.map letterByte) = .ok ds := by
  induction ds generalizing position with
  | nil => rfl
  | cons d ds ih =>
    obtain ⟨hd, hds⟩ := List.forall_mem_cons.mp h
    obtain ⟨hb, hv⟩ := value?_letterByte d hd
    rw [List.map_cons, readDigits, if_neg (UInt8.not_le.mpr hb), hv]
    dsimp only
    rw [ih hds]
    rfl

theorem eq_letterBytes_of_readDigits {position : Nat} {bytes : Bytes} {ds : List Nat}
    (h : readDigits position bytes = .ok ds) :
    (∀ d ∈ ds, d < 58) ∧ bytes = ds.map letterByte := by
  induction bytes generalizing position ds with
  | nil =>
    cases h
    exact ⟨fun d hd => absurd hd List.not_mem_nil, rfl⟩
  | cons b bytes ih =>
    rw [readDigits] at h
    split at h
    · cases h
    · cases hv : value? b with
      | none =>
        rw [hv] at h
        cases h
      | some d =>
        rw [hv] at h
        dsimp only at h
        cases hr : readDigits (position + 1) bytes with
        | error fault =>
          rw [hr] at h
          cases h
        | ok rest =>
          rw [hr] at h
          cases h
          obtain ⟨hd, rfl⟩ := value?_eq_some hv
          obtain ⟨hrest, rfl⟩ := ih hr
          exact ⟨List.forall_mem_cons.mpr ⟨hd, hrest⟩, rfl⟩

/-- Texts that are read are written with the letters, one for each digit. -/
theorem readDigits_eq_ok_iff {text : String} {ds : List Nat} :
    readDigits 0 (Bytes.ofText text) = .ok ds ↔
      (∀ d ∈ ds, d < 58) ∧ text = String.ofList (ds.map letter) := by
  constructor
  · intro h
    obtain ⟨hd, hb⟩ := eq_letterBytes_of_readDigits h
    refine ⟨hd, Bytes.ofText_injective ?_⟩
    rw [hb, ofText_ofList_letters hd]
  · rintro ⟨hd, rfl⟩
    rw [ofText_ofList_letters hd, readDigits_letterBytes hd]

/-! ## Bytes -/

theorem map_toNat_leading (bytes : Bytes) : (bytes.takeWhile (· == 0)).map UInt8.toNat =
    (bytes.map UInt8.toNat).takeWhile (· == 0) := by
  rw [List.takeWhile_map]
  congr 2
  funext b
  rw [Function.comp_apply, Bool.eq_iff_iff, beq_iff_eq, beq_iff_eq, ← UInt8.toNat_inj]
  rfl

/-- The letters are the digits of the bytes in another base. -/
theorem encode_eq (bytes : Bytes) :
    encode bytes = String.ofList ((Radix.rebase 256 58 (bytes.map UInt8.toNat)).map letter) := by
  have hl : (bytes.takeWhile (· == 0)).map (fun _ => '1') =
      ((bytes.map UInt8.toNat).takeWhile (· == 0)).map letter := by
    rw [← map_toNat_leading, List.map_map]
    refine List.map_congr_left fun b hb => ?_
    rw [Radix.eq_zero_of_mem_leading hb]
    rfl
  rw [encode, Radix.rebase, List.map_append, ← hl]

theorem decode_of_readDigits {text : String} {ds : List Nat}
    (h : readDigits 0 (Bytes.ofText text) = .ok ds) :
    decode text = .ok ((Radix.rebase 58 256 ds).map UInt8.ofNat) := by
  have hl : (ds.takeWhile (· == 0)).map (fun _ => 0) =
      (ds.takeWhile (· == 0)).map UInt8.ofNat := by
    refine List.map_congr_left fun d hd => ?_
    rw [Radix.eq_zero_of_mem_leading hd]
    rfl
  rw [decode, h, Radix.rebase, List.map_append, ← hl]
  rfl

theorem decode_encode (bytes : Bytes) : decode (encode bytes) = .ok bytes := by
  have hb : ∀ n ∈ bytes.map UInt8.toNat, n < 256 := by
    rw [List.forall_mem_map]
    exact fun b _ => b.toNat_lt
  have hr : readDigits 0 (Bytes.ofText (encode bytes)) =
      .ok (Radix.rebase 256 58 (bytes.map UInt8.toNat)) :=
    readDigits_eq_ok_iff.mpr ⟨fun d => Radix.lt_of_mem_rebase (by decide), encode_eq bytes⟩
  rw [decode_of_readDigits hr, Radix.rebase_rebase (by decide) (by decide) hb, List.map_map]
  congr
  exact List.map_id'' (fun b => UInt8.ofNat_toNat) bytes

/-- What is written is read as the bytes it stands for, and nothing else is. -/
theorem decode_eq_ok_iff {text : String} {bytes : Bytes} :
    decode text = .ok bytes ↔ text = encode bytes := by
  constructor
  · intro h
    cases hr : readDigits 0 (Bytes.ofText text) with
    | error fault =>
      rw [decode, hr] at h
      cases h
    | ok ds =>
      rw [decode_of_readDigits hr] at h
      obtain ⟨hd, rfl⟩ := readDigits_eq_ok_iff.mp hr
      obtain rfl := Except.ok.inj h
      have hn : ((Radix.rebase 58 256 ds).map UInt8.ofNat).map UInt8.toNat =
          Radix.rebase 58 256 ds := by
        rw [List.map_map]
        refine (List.map_congr_left fun n hn => ?_).trans (List.map_id _)
        exact UInt8.toNat_ofNat_of_lt' (Radix.lt_of_mem_rebase (by decide) hn)
      rw [encode_eq, hn, Radix.rebase_rebase (by decide) (by decide) hd]
  · rintro rfl
    exact decode_encode bytes

theorem encode_inj {bytes other : Bytes} : encode bytes = encode other ↔ bytes = other := by
  refine ⟨fun h => ?_, congrArg encode⟩
  have hd : decode (encode bytes) = .ok other := decode_eq_ok_iff.mpr h
  rw [decode_encode] at hd
  exact Except.ok.inj hd

end Base58

end WorkLedger
