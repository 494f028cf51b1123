import WorkLedger.Address
import WorkLedger.Proofs.Address.Base58
import WorkLedger.Proofs.Commitment.Texts

/-! Valid addresses. An address is valid if it is read as some bytes with their checksum behind
them. Base 58 writes different bytes differently and is read in one way, so these are the bytes that
somebody put a checksum to, each spelled once, and the address of a key tells its fingerprint. -/

namespace WorkLedger

theorem length_checksum (payload : Bytes) : (checksum payload).length = 4 := by
  simp [checksum, sha256, Sha256.State.bytes, Sha256.State.words]

theorem append_checksum_inj {v w : Bytes} : v ++ checksum v = w ++ checksum w ↔ v = w := by
  refine ⟨fun h => ?_, fun h => by rw [h]⟩
  exact (List.append_inj' h (by rw [length_checksum, length_checksum])).1

theorem Base58.letter_mem_alphabet : ∀ d < 58, Base58.letter d ∈ Base58.alphabet := by decide

theorem Base58.spelled_encode (bytes : Bytes) : Base58.Spelled (Base58.encode bytes) := by
  intro c hc
  rw [Base58.encode_eq, String.toList_ofList] at hc
  obtain ⟨d, hd, rfl⟩ := List.mem_map.mp hc
  exact Base58.letter_mem_alphabet d (Radix.lt_of_mem_rebase (by decide) hd)

namespace Address

/-- What is read passes if it has four bytes behind the first that are the checksum of the others.
-/
theorem isValid_of_decode {address : String} {payload : Bytes}
    (h : Base58.decode address = .ok payload) :
    isValid address = true ↔ ∃ v : Bytes, 1 ≤ v.length ∧ payload = v ++ checksum v := by
  rw [isValid, h]
  dsimp only
  rw [Bool.and_eq_true, decide_eq_true_eq, beq_iff_eq]
  constructor
  · rintro ⟨hl, hc⟩
    refine ⟨payload.take (payload.length - 4), ?_, ?_⟩
    · rw [List.length_take]
      omega
    · rw [hc, List.take_append_drop]
  · rintro ⟨v, hv, rfl⟩
    have hl : (v ++ checksum v).length - 4 = v.length := by
      rw [List.length_append, length_checksum, Nat.add_sub_cancel]
    rw [hl, List.take_left, List.drop_left, List.length_append, length_checksum]
    exact ⟨by omega, rfl⟩

theorem isValid_encode {v : Bytes} (h : 1 ≤ v.length) :
    isValid (Base58.encode (v ++ checksum v)) = true :=
  (isValid_of_decode (Base58.decode_encode _)).mpr ⟨v, h, rfl⟩

/-- Every address of a key is spelled as hashed texts need it. -/
theorem spelled_ofFingerprint (fingerprint : Bytes) : Base58.Spelled (ofFingerprint fingerprint) :=
  Base58.spelled_encode _

/-- Valid are the texts that spell at least one byte with its checksum behind it. Each such payload
has one spelling, and each address of a key is one and is that of no other fingerprint. -/
theorem isValid_iff_checksummed :
    (∀ address, isValid address = true ↔
      ∃ v : Bytes, 1 ≤ v.length ∧ address = Base58.encode (v ++ checksum v)) ∧
    (∀ (v : Bytes) (address : String), Base58.decode address = .ok (v ++ checksum v) ↔
      address = Base58.encode (v ++ checksum v)) ∧
    (∀ fingerprint, isValid (ofFingerprint fingerprint) = true) ∧
    ∀ fingerprint other, ofFingerprint fingerprint = ofFingerprint other ↔ fingerprint = other := by
  refine ⟨fun address => ?_, fun v address => Base58.decode_eq_ok_iff, fun fingerprint => ?_,
    fun fingerprint other => ?_⟩
  · constructor
    · intro h
      cases hd : Base58.decode address with
      | error fault =>
        rw [isValid, hd] at h
        cases h
      | ok payload =>
        obtain ⟨v, hv, rfl⟩ := (isValid_of_decode hd).mp h
        exact ⟨v, hv, Base58.decode_eq_ok_iff.mp hd⟩
    · rintro ⟨v, hv, rfl⟩
      exact isValid_encode hv
  · exact isValid_encode (Nat.succ_pos _)
  · rw [ofFingerprint, ofFingerprint, Base58.encode_inj, append_checksum_inj, List.cons_inj_right]

end Address

end WorkLedger
