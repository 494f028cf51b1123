import WorkLedger.Block.Record
import WorkLedger.Wallet

/-! Records are read back as they were written, whatever bytes come behind them. The one thing that
a record cannot hold is a length of more than 64 bits, so each type says what keeps a value clear of
that, and its reader undoes its writer on such values. -/

namespace WorkLedger

theorem Bytes.toText?_ofText (text : String) : Bytes.toText? (Bytes.ofText text) = some text := by
  simp only [Bytes.toText?, Bytes.ofText, String.toUTF8, Array.toArray_toList]
  exact dif_pos text.isValidUTF8

theorem Bytes.ofText_injective {s t : String} (h : Bytes.ofText s = Bytes.ofText t) : s = t := by
  have ht := congrArg Bytes.toText? h
  rw [toText?_ofText, toText?_ofText] at ht
  exact Option.some.inj ht

namespace Binary

/-! ## Numbers -/

theorem readFixed_littleEndian {width n : Nat} (h : n < Nat.pow 256 width) (rest : Bytes) :
    readFixed width (Bytes.littleEndian width n ++ rest) = some (n, rest) := by
  have hl : (Bytes.littleEndian width n).length = width := Bytes.length_littleEndian width n
  rw [readFixed, if_pos (by rw [List.length_append, hl]; omega), List.take_left' hl,
    List.drop_left' hl, Bytes.ofLittleEndian_littleEndian, Nat.mod_eq_of_lt h]

/-- The reader's width allows every marker that the writer chooses for the number. -/
theorem readNumber_writeNumber {width n : Nat}
    (h : n < UInt32.size ∧ 4 ≤ width ∨ n < UInt64.size ∧ 8 ≤ width) (rest : Bytes) :
    readNumber width (writeNumber n ++ rest) = some (n, rest) := by
  have h4 : UInt32.size = 4294967296 := rfl
  have h8 : UInt64.size = 18446744073709551616 := rfl
  unfold writeNumber
  split
  · rename_i hn
    have hb : UInt8.ofNat n < 251 := by
      rw [UInt8.lt_iff_toNat_lt, UInt8.toNat_ofNat']
      exact Nat.lt_of_le_of_lt (Nat.mod_le n _) hn
    simp only [List.cons_append, List.nil_append, readNumber, if_pos hb, UInt8.toNat_ofNat']
    rw [Nat.mod_eq_of_lt (by omega)]
  · split
    · rename_i hn
      have hw : 2 ≤ width := by omega
      simpa [readNumber, hw] using readFixed_littleEndian hn rest
    · split
      · rename_i hn
        have hw : 4 ≤ width := by omega
        simpa [readNumber, hw] using readFixed_littleEndian hn rest
      · have hw : 8 ≤ width := by omega
        have hn : n < Nat.pow 256 8 := by
          have hp : Nat.pow 256 8 = 18446744073709551616 := rfl
          omega
        simpa [readNumber, hw] using readFixed_littleEndian hn rest

theorem unzigzag_zigzag (i : Int) : unzigzag (zigzag i) = i := by
  unfold unzigzag zigzag
  by_cases h : 0 ≤ i
  · rw [if_pos h, if_pos (by omega)]
    omega
  · rw [if_neg h, if_neg (by omega)]
    omega

theorem zigzag_lt (i : Int64) : zigzag i.toInt < UInt64.size := by
  have hl := i.le_toInt
  have hu := i.toInt_lt
  have h8 : UInt64.size = 18446744073709551616 := rfl
  unfold zigzag
  split <;> omega

/-! ## Records -/

/-- A format whose reader undoes its writer and stops where the record ends. -/
class Lossless (α : Type) [Binary α] where
  /-- All lengths in the value can be written. -/
  Fits : α → Prop
  decidableFits : DecidablePred Fits := by infer_instance
  decode_encode {x : α} : Fits x → ∀ rest : Bytes, decode (encode x ++ rest) = some (x, rest)

open Lossless

attribute [reducible, instance] decidableFits

instance : Lossless UInt8 where
  Fits _ := True
  decode_encode _ _ := rfl

instance : Lossless UInt32 where
  Fits _ := True
  decode_encode {n} _ rest := by
    simp only [encode, decode]
    rw [readNumber_writeNumber (.inl ⟨n.toNat_lt_size, Nat.le_refl 4⟩), Option.map_some,
      UInt32.ofNat_toNat]

instance : Lossless UInt64 where
  Fits _ := True
  decode_encode {n} _ rest := by
    simp only [encode, decode]
    rw [readNumber_writeNumber (.inr ⟨n.toNat_lt_size, Nat.le_refl 8⟩), Option.map_some,
      UInt64.ofNat_toNat]

instance : Lossless Int64 where
  Fits _ := True
  decode_encode {i} _ rest := by
    simp only [encode, decode]
    rw [readNumber_writeNumber (.inr ⟨zigzag_lt i, Nat.le_refl 8⟩), Option.map_some,
      unzigzag_zigzag, Int64.ofInt_toInt]

variable {α β : Type} [Binary α] [Lossless α] [Binary β] [Lossless β]

theorem readMany_encode {xs : List α} (h : ∀ x ∈ xs, Fits x) (rest : Bytes) :
    readMany xs.length (xs.flatMap encode ++ rest) = some (xs, rest) := by
  induction xs with
  | nil => rfl
  | cons x xs ih =>
    obtain ⟨hx, hxs⟩ := List.forall_mem_cons.mp h
    simp [readMany, decode_encode hx, ih hxs]

instance : Lossless (List α) where
  Fits xs := xs.length < UInt64.size ∧ ∀ x ∈ xs, Fits x
  decode_encode {xs} h rest := by
    simp only [encode, decode, List.append_assoc]
    rw [readNumber_writeNumber (.inr ⟨h.1, Nat.le_refl 8⟩)]
    exact readMany_encode h.2 rest

instance : Lossless (α × β) where
  Fits p := Fits p.1 ∧ Fits p.2
  decode_encode {p} h rest := by
    simp [encode, decode, decode_encode h.1, decode_encode h.2]

instance : Lossless (Option α) where
  Fits o := ∀ x ∈ o, Fits x
  decode_encode {o} h rest := by
    cases o with
    | none => rfl
    | some x => simp [encode, decode, decode_encode (h x rfl)]

instance : Lossless String where
  Fits s := Fits (Bytes.ofText s)
  decode_encode {s} h rest := by
    change (decode (encode (Bytes.ofText s) ++ rest) : Option (Bytes × Bytes)) >>= _ = _
    simp [decode_encode h, Bytes.toText?_ofText]

instance : Lossless Transfer where
  Fits t := Fits t.sender ∧ Fits t.receiver
  decode_encode {t} h rest := by
    change decode (encode t.sender ++ encode t.receiver ++ encode t.amount ++ rest) >>= _ = _
    have ha : Fits t.amount := trivial
    simp [decode_encode h.1, decode_encode h.2, decode_encode ha]

instance : Lossless Transaction where
  Fits t := Fits t.transfer ∧ Fits t.signature ∧ Fits t.publicKey
  decode_encode {t} h rest := by
    change decode (encode t.transfer ++ encode t.timestamp ++ encode t.signature ++
      encode t.publicKey ++ rest) >>= _ = _
    have ht : Fits t.timestamp := trivial
    simp [decode_encode h.1, decode_encode ht, decode_encode h.2.1, decode_encode h.2.2]

instance : Lossless Reward where
  Fits r := Fits r.miner
  decode_encode {r} h rest := by
    change decode (encode r.miner ++ encode r.amount ++ rest) >>= _ = _
    have ha : Fits r.amount := trivial
    simp [decode_encode h, decode_encode ha]

instance : Lossless Wallet where
  Fits w := Fits w.keyFile ∧ Fits w.publicKey
  decode_encode {w} h rest := by
    change decode (encode w.keyFile ++ encode w.publicKey ++ rest) >>= _ = _
    simp [decode_encode h.1, decode_encode h.2]

instance : Lossless Block where
  Fits b := Fits b.digest ∧ Fits b.previousHash ∧ Fits b.hash ∧ Fits b.minerName ∧
    Fits b.reward ∧ Fits b.transactions
  decode_encode {b} h rest := by
    obtain ⟨hd, hp, hh, hm, hr, ht⟩ := h
    change decode (encode b.height ++ encode b.timestamp ++ encode b.digest ++ encode b.nonce ++
      encode b.previousHash ++ encode b.hash ++ encode b.minerName ++ encode b.reward ++
      encode b.transactions ++ rest) >>= _ = _
    have height : Fits b.height := trivial
    have timestamp : Fits b.timestamp := trivial
    have nonce : Fits b.nonce := trivial
    simp [decode_encode height, decode_encode timestamp, decode_encode hd, decode_encode nonce,
      decode_encode hp, decode_encode hh, decode_encode hm, decode_encode hr, decode_encode ht]

end Binary

end WorkLedger
