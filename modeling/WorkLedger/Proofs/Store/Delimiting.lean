import WorkLedger.Proofs.Store.Reload

/-! Stored records tell where they end. Whatever bytes come behind a record, the same value is read
from it, so no two values share a record and none is the beginning of another. The one thing asked
of a value is that its lengths can be written, and that is no more than what every value has that
was ever read. -/

namespace WorkLedger

theorem Bytes.ofLittleEndian_lt (bytes : Bytes) :
    Bytes.ofLittleEndian bytes < Nat.pow 256 bytes.length := by
  induction bytes with
  | nil => exact Nat.zero_lt_one
  | cons b bytes ih =>
    have hb : b.toNat < 256 := b.toNat_lt
    have hp : Nat.pow 256 (b :: bytes).length = 256 * Nat.pow 256 bytes.length := Nat.mul_comm _ _
    rw [Bytes.ofLittleEndian, hp]
    omega

theorem Bytes.ofText_of_toText? {bytes : Bytes} {text : String}
    (h : Bytes.toText? bytes = some text) : Bytes.ofText text = bytes := by
  obtain ⟨hv, ht⟩ := Option.dite_none_right_eq_some.mp h
  obtain rfl := Option.some.inj ht
  simp [Bytes.ofText, String.toUTF8, String.fromUTF8]

namespace Binary

open Lossless

variable {α : Type} [Binary α] [Lossless α] {bytes rest : Bytes}

/-! ## Where a record ends -/

theorem readRecord_encode_append {x : α} (h : Fits x) (tail : Bytes) :
    Store.readRecord (encode x ++ tail) = .ok x := by
  rw [Store.readRecord, read?, decode_encode h tail]
  rfl

/-- The bytes tell the value, and where it ends: what follows in the longer record would be left. -/
theorem eq_of_encode_isPrefix {x y : α} (hx : Fits x) (hy : Fits y)
    (h : encode x <+: encode y) : x = y := by
  obtain ⟨tail, ht⟩ := h
  have hread : Store.readRecord (encode x ++ tail) = .ok x := readRecord_encode_append hx tail
  rw [ht, Store.readRecord_encode hy] at hread
  exact (Except.ok.inj hread).symm

/-! ## What can be read -/

theorem readFixed_lt {width n : Nat} (h : readFixed width bytes = some (n, rest)) :
    n < Nat.pow 256 width := by
  obtain ⟨hl, he⟩ := Option.ite_none_right_eq_some.mp h
  obtain ⟨rfl, rfl⟩ := Prod.mk.inj (Option.some.inj he)
  have hn := Bytes.ofLittleEndian_lt (bytes.take width)
  rwa [List.length_take, Nat.min_eq_left hl] at hn

/-- Whatever marker a number has, it stays below what eight bytes can hold. -/
theorem readNumber_lt {width n : Nat} (h : readNumber width bytes = some (n, rest)) :
    n < UInt64.size := by
  have hsize : Nat.pow 256 2 ≤ UInt64.size ∧ Nat.pow 256 4 ≤ UInt64.size ∧
    Nat.pow 256 8 ≤ UInt64.size := by decide
  cases bytes with
  | nil => cases h
  | cons b bytes =>
    rw [readNumber] at h
    split at h
    · obtain ⟨rfl, rfl⟩ := Prod.mk.inj (Option.some.inj h)
      have hb : b.toNat < 256 := b.toNat_lt
      have h8 : UInt64.size = 18446744073709551616 := rfl
      omega
    · split at h
      · exact Nat.lt_of_lt_of_le (readFixed_lt h) hsize.1
      · split at h
        · exact Nat.lt_of_lt_of_le (readFixed_lt h) hsize.2.1
        · split at h
          · exact Nat.lt_of_lt_of_le (readFixed_lt h) hsize.2.2
          · cases h

/-- A reader that goes on after a field has read the field. -/
theorem exists_of_bind {β γ : Type} {first : Option (β × Bytes)}
    {next : β × Bytes → Option γ} {y : γ} (h : first >>= next = some y) :
    ∃ x rest, first = some (x, rest) ∧ next (x, rest) = some y := by
  obtain ⟨⟨x, rest⟩, hx, hy⟩ := Option.bind_eq_some_iff.mp h
  exact ⟨x, rest, hx, hy⟩

/-- A format whose reader makes no value that could not have been written. -/
class Bounded (α : Type) [Binary α] [Lossless α] : Prop where
  fits_of_decode {bytes : Bytes} {x : α} {rest : Bytes} :
    decode bytes = some (x, rest) → Fits x

open Bounded

instance : Bounded UInt8 := ⟨fun _ => trivial⟩
instance : Bounded UInt32 := ⟨fun _ => trivial⟩
instance : Bounded UInt64 := ⟨fun _ => trivial⟩
instance : Bounded Int64 := ⟨fun _ => trivial⟩

variable [Bounded α]

theorem fits_of_readMany {n : Nat} {xs : List α} (h : readMany n bytes = some (xs, rest)) :
    xs.length = n ∧ ∀ x ∈ xs, Fits x := by
  induction n generalizing bytes xs with
  | zero =>
    obtain ⟨rfl, rfl⟩ := Prod.mk.inj (Option.some.inj h)
    exact ⟨rfl, fun x hx => absurd hx List.not_mem_nil⟩
  | succ n ih =>
    obtain ⟨x, bytes, hx, h⟩ := exists_of_bind h
    obtain ⟨xs, _, hxs, h⟩ := exists_of_bind h
    obtain ⟨rfl, rfl⟩ := Prod.mk.inj (Option.some.inj h)
    obtain ⟨hl, hf⟩ := ih hxs
    exact ⟨congrArg Nat.succ hl, List.forall_mem_cons.mpr ⟨fits_of_decode hx, hf⟩⟩

instance : Bounded (List α) where
  fits_of_decode h := by
    obtain ⟨n, bytes, hn, h⟩ := exists_of_bind h
    obtain ⟨hl, hf⟩ := fits_of_readMany h
    exact ⟨by rw [hl]; exact readNumber_lt hn, hf⟩

instance : Bounded (Option α) where
  fits_of_decode {bytes o rest} h := by
    intro x hx
    simp only [decode] at h
    split at h
    · obtain ⟨rfl, _⟩ := Prod.mk.inj (Option.some.inj h)
      cases hx
    · obtain ⟨⟨y, _⟩, hy, h⟩ := Option.map_eq_some_iff.mp h
      obtain ⟨rfl, _⟩ := Prod.mk.inj h
      obtain rfl := Option.some.inj hx
      exact fits_of_decode hy
    · cases h

instance : Bounded String where
  fits_of_decode h := by
    change (decode _ : Option (Bytes × Bytes)) >>= _ = _ at h
    obtain ⟨content, rest, hc, h⟩ := exists_of_bind h
    obtain ⟨text, ht, h⟩ := Option.bind_eq_some_iff.mp h
    obtain ⟨rfl, rfl⟩ := Prod.mk.inj (Option.some.inj h)
    have hf : Fits content := fits_of_decode hc
    rw [← Bytes.ofText_of_toText? ht] at hf
    exact hf

instance : Bounded Transfer where
  fits_of_decode h := by
    obtain ⟨sender, _, hs, h⟩ := exists_of_bind h
    obtain ⟨receiver, _, hr, h⟩ := exists_of_bind h
    obtain ⟨amount, _, _, h⟩ := exists_of_bind h
    obtain ⟨rfl, rfl⟩ := Prod.mk.inj (Option.some.inj h)
    exact ⟨fits_of_decode hs, fits_of_decode hr⟩

instance : Bounded Transaction where
  fits_of_decode h := by
    obtain ⟨transfer, _, ht, h⟩ := exists_of_bind h
    obtain ⟨timestamp, _, _, h⟩ := exists_of_bind h
    obtain ⟨signature, _, hs, h⟩ := exists_of_bind h
    obtain ⟨publicKey, _, hk, h⟩ := exists_of_bind h
    obtain ⟨rfl, rfl⟩ := Prod.mk.inj (Option.some.inj h)
    exact ⟨fits_of_decode ht, fits_of_decode hs, fits_of_decode hk⟩

instance : Bounded Reward where
  fits_of_decode h := by
    obtain ⟨miner, _, hm, h⟩ := exists_of_bind h
    obtain ⟨amount, _, _, h⟩ := exists_of_bind h
    obtain ⟨rfl, rfl⟩ := Prod.mk.inj (Option.some.inj h)
    exact fits_of_decode (α := String) hm

instance : Bounded Wallet where
  fits_of_decode h := by
    obtain ⟨keyFile, _, hf, h⟩ := exists_of_bind h
    obtain ⟨publicKey, _, hk, h⟩ := exists_of_bind h
    obtain ⟨rfl, rfl⟩ := Prod.mk.inj (Option.some.inj h)
    exact ⟨fits_of_decode hf, fits_of_decode hk⟩

instance : Bounded Block where
  fits_of_decode h := by
    obtain ⟨height, _, _, h⟩ := exists_of_bind h
    obtain ⟨timestamp, _, _, h⟩ := exists_of_bind h
    obtain ⟨digest, _, hd, h⟩ := exists_of_bind h
    obtain ⟨nonce, _, _, h⟩ := exists_of_bind h
    obtain ⟨previousHash, _, hp, h⟩ := exists_of_bind h
    obtain ⟨hash, _, hh, h⟩ := exists_of_bind h
    obtain ⟨minerName, _, hm, h⟩ := exists_of_bind h
    obtain ⟨reward, _, hr, h⟩ := exists_of_bind h
    obtain ⟨transactions, _, ht, h⟩ := exists_of_bind h
    obtain ⟨rfl, rfl⟩ := Prod.mk.inj (Option.some.inj h)
    exact ⟨fits_of_decode hd, fits_of_decode hp, fits_of_decode hh, fits_of_decode hm,
      fits_of_decode hr, fits_of_decode ht⟩

theorem fits_of_readRecord {x : α} (h : Store.readRecord bytes = .ok x) : Fits x := by
  unfold Store.readRecord read? at h
  split at h
  · rename_i y hy
    obtain rfl := Except.ok.inj h
    obtain ⟨⟨_, rest⟩, hd, rfl⟩ := Option.map_eq_some_iff.mp hy
    exact fits_of_decode hd
  · cases h

/-! ## Formats -/

/-- What a format owes to those who store records in it. A length is written in at most 64 bits,
which is what lengths have in memory, so only values with longer ones are left out. -/
structure SelfDelimiting (α : Type) [Binary α] [Lossless α] : Prop where
  /-- The value comes back, whatever bytes come behind it. -/
  readRecord_eq : ∀ x : α, Fits x → ∀ tail, Store.readRecord (encode x ++ tail) = .ok x
  /-- The bytes behind it are left as they are. -/
  decode_eq : ∀ x : α, Fits x → ∀ tail, decode (encode x ++ tail) = some (x, tail)
  /-- No record is another one, or the beginning of it. -/
  eq_of_isPrefix : ∀ x y : α, Fits x → Fits y → encode x <+: encode y → x = y
  /-- No other value is ever read. -/
  fits : ∀ (bytes : Bytes) (x : α), Store.readRecord bytes = .ok x → Fits x

theorem selfDelimiting : SelfDelimiting α where
  readRecord_eq _ := readRecord_encode_append
  decode_eq _ := decode_encode
  eq_of_isPrefix _ _ := eq_of_encode_isPrefix
  fits _ _ := fits_of_readRecord

/-- All that is stored, and the parts of it: every field comes back, keys and signatures byte by
byte, and the record says itself where it ends. -/
theorem records_selfDelimiting :
    SelfDelimiting Block ∧ SelfDelimiting Transaction ∧ SelfDelimiting Transfer ∧
      SelfDelimiting (Option Reward) ∧ SelfDelimiting Wallet :=
  ⟨selfDelimiting, selfDelimiting, selfDelimiting, selfDelimiting, selfDelimiting⟩

/-- Numbers on both sides of each marker, at the ends of their types, and texts beyond ASCII. -/
def wide : Block where
  height := 250
  timestamp := Int64.minValue
  digest := "é\x00"
  nonce := 18446744073709551615
  previousHash := ""
  hash := "\u00ff🪙"
  minerName := "Miner 0"
  reward := some ⟨"", 4294967296⟩
  transactions :=
    [⟨⟨"FC", "SC", 251⟩, -126, [0, 255, 7, 0], []⟩, ⟨⟨"SC", "", 65535⟩, 32768, [], [4, 1]⟩,
      ⟨⟨"", "FC", 65536⟩, -2147483649, [1], [4]⟩]

theorem records_selfDelimiting_wide :
    Fits wide ∧ Store.readRecord (encode wide ++ [0, 251]) = .ok wide := by
  have hf : Fits wide := by decide
  exact ⟨hf, records_selfDelimiting.1.readRecord_eq wide hf [0, 251]⟩

end Binary

end WorkLedger
