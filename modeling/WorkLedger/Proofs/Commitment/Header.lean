import WorkLedger.Proofs.Commitment.Chain

/-! A block's hash and its header. Between two blocks of one height on the same block, the hash
settles the reward, the digest and the digits of time and nonce in a row. Nothing marks where the
time ends, so digits may move from one to the other; but then one of the times is at least ten times
the other. -/

namespace WorkLedger

/-! ## A number that begins with another -/

/-- The second number is at least ten times the first, signs apart, and the first is not zero. -/
def Tenfold (i j : Int) : Prop := i ≠ 0 ∧ 10 * i.natAbs ≤ j.natAbs

/-- Digits added behind a number make it at least ten times as large; only zero takes none. -/
theorem tenfold_of_toString_nat {m n : Nat} {more : List Char} (hm : more ≠ [])
    (h : (toString n).toList = (toString m).toList ++ more) : m ≠ 0 ∧ 10 * m ≤ n := by
  simp only [Nat.toString_eq_ofList_toDigits, String.toList_ofList] at h
  constructor
  · rintro rfl
    have hn : n = 0 := eq_zero_of_head?_toDigits (by rw [h]; rfl)
    rw [hn] at h
    exact hm (List.tail_eq_of_cons_eq h).symm
  · have hv := congrArg (fun ds => Nat.ofDigitChars 10 ds 0) h
    simp only [Nat.ofDigitChars_append, Nat.ofDigitChars_ten_toDigits] at hv
    rw [Nat.ofDigitChars_eq_ofDigitChars_zero] at hv
    have hp : 10 ^ 1 ≤ 10 ^ more.length :=
      Nat.pow_le_pow_right (by decide) (List.length_pos_iff.mpr hm)
    calc 10 * m ≤ 10 ^ more.length * m := Nat.mul_le_mul_right m hp
      _ ≤ n := by omega

/-- The same with signs: a sign is no digit, so none can be added behind. -/
theorem tenfold_of_toString_int {i j : Int} {more : List Char} (hm : more ≠ [])
    (h : (toString j).toList = (toString i).toList ++ more) : Tenfold i j := by
  cases i with
  | ofNat m =>
    cases j with
    | ofNat n =>
      obtain ⟨hz, hle⟩ := tenfold_of_toString_nat hm h
      exact ⟨fun he => hz (Int.ofNat.inj he), hle⟩
    | negSucc n =>
      obtain ⟨d, ds, hd⟩ := List.exists_cons_of_ne_nil (toList_toString_nat_ne_nil m)
      have hdigit : d.isDigit = true :=
        isDigit_of_mem_toString_nat (n := m) (hd ▸ List.mem_cons_self)
      have hr : (toString (Int.ofNat m)).toList = d :: ds := hd
      rw [toList_toString_negSucc, hr] at h
      rw [← List.head_eq_of_cons_eq h] at hdigit
      cases hdigit
  | negSucc m =>
    rw [toList_toString_negSucc] at h
    cases j with
    | ofNat n =>
      have hs : '-' ∈ (toString n).toList := by
        have : '-' ∈ (toString (Int.ofNat n)).toList := h ▸ List.mem_cons_self
        exact this
      exact absurd hs (not_mem_toString_nat (by decide) n)
    | negSucc n =>
      rw [toList_toString_negSucc] at h
      obtain ⟨_, hle⟩ := tenfold_of_toString_nat hm (List.tail_eq_of_cons_eq h)
      exact ⟨Int.negSucc_ne_zero m, hle⟩

/-- Two numbers in a row can be told apart, unless the first is tenfold in one of the readings. -/
theorem eq_or_tenfold_of_toString_append {i j : Int} {m n : Nat}
    (h : toString i ++ toString m = toString j ++ toString n) :
    (i = j ∧ m = n) ∨ Tenfold i j ∨ Tenfold j i := by
  have hl := congrArg String.toList h
  rw [String.toList_append, String.toList_append] at hl
  have heq {i j : Int} {m n : Nat} (hi : (toString j).toList = (toString i).toList)
      (hm : (toString m).toList = (toString n).toList) : i = j ∧ m = n :=
    ⟨(toString_int_inj hi).symm, toString_nat_inj hm⟩
  rcases List.append_eq_append_iff.mp hl with ⟨more, hj, hm⟩ | ⟨more, hi, hn⟩
  · cases more with
    | nil => exact Or.inl (heq (by simpa using hj) (by simpa using hm))
    | cons c more => exact Or.inr (Or.inl (tenfold_of_toString_int (List.cons_ne_nil c more) hj))
  · cases more with
    | nil => exact Or.inl (heq (by simpa using hi.symm) (by simpa using hn.symm))
    | cons c more => exact Or.inr (Or.inr (tenfold_of_toString_int (List.cons_ne_nil c more) hi))

/-! ## Blocks with one hash -/

namespace Block

variable {a b previous : Block} {m n : Nat} {now later : Int64}

/-- With the height and the block before given, the rest of the header is hashed as these three. -/
theorem text_header_eq_iff (ha : Acceptance.Fits a previous m) (hb : Acceptance.Fits b previous n)
    (hh : a.height = b.height) :
    a.header.text = b.header.text ↔
      a.reward = b.reward ∧ a.digest = b.digest ∧ a.header.stamp = b.header.stamp := by
  constructor
  · intro ht
    have hp : a.previousHash = b.previousHash := ha.linked.trans hb.linked.symm
    have hd : a.digest.toList.length = b.digest.toList.length := by
      rw [← ha.digested, ← hb.digested]
      exact (length_sha256Hex _).trans (length_sha256Hex _).symm
    obtain ⟨hr, hn, -, hd⟩ := Header.text_inj (congrArg (·.toList.length) hp) hd ht
    refine ⟨hr, hd, ?_⟩
    rw [Header.numbers, Header.numbers, show a.header.height = b.header.height from hh] at hn
    exact (String.append_right_inj _).mp hn
  · rintro ⟨hr, hd, hs⟩
    rw [Header.text_eq, Header.text_eq, Header.numbers, Header.numbers, hs]
    simp only [header, hr, hh, hd, ha.linked, hb.linked]

theorem hash_eq_iff_stamp (ha : Acceptance.Fits a previous m) (hb : Acceptance.Fits b previous n)
    (hh : a.height = b.height) (hf : CollisionFree (a.hashedTexts ++ b.hashedTexts)) :
    a.hash = b.hash ↔
      a.reward = b.reward ∧ a.digest = b.digest ∧ a.header.stamp = b.header.stamp := by
  rw [← text_header_eq_iff ha hb hh, ← ha.hashed, ← hb.hashed]
  constructor
  · exact hf _ (List.mem_append_left _ List.mem_cons_self) _
      (List.mem_append_right _ List.mem_cons_self)
  · exact congrArg sha256Hex

theorem eq_or_tenfold_of_stamp (h : a.header.stamp = b.header.stamp) :
    (a.timestamp = b.timestamp ∧ a.nonce = b.nonce) ∨
      Tenfold a.timestamp.toInt b.timestamp.toInt ∨
      Tenfold b.timestamp.toInt a.timestamp.toInt := by
  cases eq_or_tenfold_of_toString_append h with
  | inl heq =>
    obtain ⟨ht, hn⟩ := heq
    exact Or.inl ⟨Int64.toInt_inj.mp ht, UInt64.toNat_inj.mp hn⟩
  | inr h => exact Or.inr h

end Block

namespace Ledger.KeySwap

/-- The block with the last digits of its time moved to its nonce. -/
def backdated : Block := { funding with timestamp := 150000000, nonce := 1000248 }

theorem text_backdated : backdated.header.text = funding.header.text := by decide

theorem backdated_fits : Acceptance.Fits backdated Block.genesis 2 where
  linked := rfl
  worked := funding_acceptable.fits.worked
  digested := funding_acceptable.fits.digested
  hashed := (congrArg sha256Hex text_backdated).trans funding_acceptable.fits.hashed

theorem inspectBase_backdated : ∀ b ∈ [funding, backdated],
    Acceptance.inspectBase b Block.genesis 2 1600000000000 = .ok () := by
  simp only [List.forall_mem_cons, Acceptance.inspectBase_eq_ok_iff]
  exact ⟨⟨by decide, funding_acceptable.fits⟩, ⟨by decide, backdated_fits⟩, by simp⟩

theorem collisionFree_backdated :
    CollisionFree (funding.hashedTexts ++ backdated.hashedTexts) := by
  have hf := funding_acceptable.fits
  have hm : funding.hashedTexts.map sha256Hex = [funding.hash, funding.digest] := by
    rw [← hf.hashed, ← hf.digested]
    rfl
  have hs : backdated.hashedTexts = funding.hashedTexts := by
    rw [Block.hashedTexts, text_backdated]
    rfl
  have hfree : CollisionFree funding.hashedTexts := collisionFree_of_nodup (by rw [hm]; decide)
  rw [hs]
  exact hfree.mono (List.append_subset.mpr ⟨List.Subset.refl _, List.Subset.refl _⟩)

end Ledger.KeySwap

open Ledger.KeySwap in
/-- One hash and one height, but another time and another nonce: both blocks are sound. -/
theorem hash_leaves_timestamp_open :
    Acceptance.inspectBase funding Block.genesis 2 1600000000000 = .ok () ∧
      Acceptance.inspectBase backdated Block.genesis 2 1600000000000 = .ok () ∧
      funding.height = backdated.height ∧ funding.hash = backdated.hash ∧
      CollisionFree (funding.hashedTexts ++ backdated.hashedTexts) ∧
      funding.timestamp ≠ backdated.timestamp ∧ funding.nonce ≠ backdated.nonce :=
  ⟨inspectBase_backdated _ (by simp), inspectBase_backdated _ (by simp), rfl, rfl,
    collisionFree_backdated, by decide, by decide⟩

/-- Two blocks of one height that are sound on the same block have the same hash if and only if
they have the same reward, the same digest and the same digits of time and nonce in a row, if no two
of the texts hashed for them collide. Then the times and the nonces are the same as well, unless
one of the times is at least ten times the other. -/
theorem hash_binds_header {a b previous : Block} {m n : Nat} {now later : Int64}
    (ha : Acceptance.inspectBase a previous m now = .ok ())
    (hb : Acceptance.inspectBase b previous n later = .ok ()) (hh : a.height = b.height)
    (hf : CollisionFree (a.hashedTexts ++ b.hashedTexts)) :
    (a.hash = b.hash ↔
      a.reward = b.reward ∧ a.digest = b.digest ∧ a.header.stamp = b.header.stamp) ∧
    (a.hash = b.hash → (a.timestamp = b.timestamp ∧ a.nonce = b.nonce) ∨
      Tenfold a.timestamp.toInt b.timestamp.toInt ∨
      Tenfold b.timestamp.toInt a.timestamp.toInt) := by
  obtain ⟨_, ha⟩ := Acceptance.inspectBase_eq_ok_iff.mp ha
  obtain ⟨_, hb⟩ := Acceptance.inspectBase_eq_ok_iff.mp hb
  have hi := Block.hash_eq_iff_stamp ha hb hh hf
  refine ⟨hi, fun he => ?_⟩
  obtain ⟨_, _, hs⟩ := hi.mp he
  exact Block.eq_or_tenfold_of_stamp hs

open Ledger.KeySwap in
/-- The two blocks share their hash because one time is the other without its last digits. -/
theorem hash_binds_header_backdated :
    Acceptance.inspectBase funding Block.genesis 2 1600000000000 = .ok () ∧
      Acceptance.inspectBase backdated Block.genesis 2 1600000000000 = .ok () ∧
      funding.height = backdated.height ∧
      CollisionFree (funding.hashedTexts ++ backdated.hashedTexts) ∧
      (funding.reward = backdated.reward ∧ funding.digest = backdated.digest ∧
        funding.header.stamp = backdated.header.stamp) ∧
      ((funding.timestamp = backdated.timestamp ∧ funding.nonce = backdated.nonce) ∨
        Tenfold funding.timestamp.toInt backdated.timestamp.toInt ∨
        Tenfold backdated.timestamp.toInt funding.timestamp.toInt) := by
  have hf := inspectBase_backdated funding (by simp)
  have hb := inspectBase_backdated backdated (by simp)
  obtain ⟨hi, ht⟩ := hash_binds_header hf hb rfl collisionFree_backdated
  exact ⟨hf, hb, rfl, collisionFree_backdated, hi.mp rfl, ht rfl⟩

end WorkLedger
