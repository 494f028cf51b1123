import WorkLedger.Proofs.Rules.Verdicts

/-! SHA-256 in numbers. The kernel counts with natural numbers at once and takes machine words and
arrays apart piece by piece, so a digest that a proof evaluates is better taken over numbers in
lists. Here the rounds are written that way beside the ones that run, and come to the same words;
so do the checks of a block and of a signature that are made of them. -/

namespace WorkLedger

namespace Sha256

namespace Numeric

def plus (x y : Nat) : Nat := (x + y) % 4294967296

/-- A word turned right, for `k` between zero and its width. -/
def turn (x k : Nat) : Nat := (x >>> k) ||| (x <<< (32 - k) % 4294967296)

/-- The word that the first four bytes spell. -/
def word (bytes : Bytes) : Nat :=
  (((bytes.getD 0 0).toNat <<< 24 % 4294967296 ||| (bytes.getD 1 0).toNat <<< 16 % 4294967296) |||
    (bytes.getD 2 0).toNat <<< 8 % 4294967296) ||| (bytes.getD 3 0).toNat

/-- The words of a block, the last one first, on top of others. -/
def load : (count : Nat) → Bytes → List Nat → List Nat
  | 0, _, recent => recent
  | count + 1, bytes, recent => load count (bytes.drop 4) (word bytes :: recent)

/-- Further words, the last one first. -/
def extend : (count : Nat) → List Nat → List Nat
  | 0, recent => recent
  | count + 1, recent =>
    let x := recent.getD 14 0
    let y := recent.getD 1 0
    let s0 := turn x 7 ^^^ turn x 18 ^^^ (x >>> 3)
    let s1 := turn y 17 ^^^ turn y 19 ^^^ (y >>> 10)
    extend count (plus (plus (plus (recent.getD 15 0) s0) (recent.getD 6 0)) s1 :: recent)

/-- One round for each constant and its word. -/
def rounds : (constants words : List Nat) → (a b c d e f g h : Nat) → List Nat
  | k :: constants, w :: words, a, b, c, d, e, f, g, h =>
    let s1 := turn e 6 ^^^ turn e 11 ^^^ turn e 25
    let choice := (e &&& f) ^^^ ((4294967295 - e) &&& g)
    let t1 := plus (plus (plus (plus h s1) choice) k) w
    let s0 := turn a 2 ^^^ turn a 13 ^^^ turn a 22
    let majority := (a &&& b) ^^^ (a &&& c) ^^^ (b &&& c)
    rounds constants words (plus (plus t1 s0) majority) a b c (plus d t1) e f g
  | _, _, a, b, c, d, e, f, g, h => [a, b, c, d, e, f, g, h]

def roundConstants : List Nat := Sha256.roundConstants.toList.map (·.toNat)

def compress (bytes : Bytes) : List Nat → List Nat
  | [a, b, c, d, e, f, g, h] =>
    List.zipWith plus [a, b, c, d, e, f, g, h]
      (rounds roundConstants (extend 48 (load 16 bytes [])).reverse a b c d e f g h)
  | words => words

def compressAll : (blocks : Nat) → Bytes → List Nat → List Nat
  | 0, _, words => words
  | blocks + 1, bytes, words => compressAll blocks (bytes.drop 64) (compress bytes words)

def finalWords (message : Bytes) : List Nat :=
  let padded := message ++ padding message.length
  compressAll (padded.length / 64) padded (State.start.words.map (·.toNat))

def digest (message : Bytes) : Bytes := (finalWords message).flatMap (Bytes.bigEndian 4)

def hex (text : String) : String := Hex.encode (digest (Bytes.ofText text))

/-- The text whose digest a block states. -/
def digestText : List Transaction → String
  | [] => "No transactions"
  | ts => "\n".intercalate (ts.map fun t => hex t.text)

end Numeric

open Numeric (plus turn word)

/-! ## Words -/

theorem toNat_add (x y : UInt32) : (x + y).toNat = plus x.toNat y.toNat := UInt32.toNat_add x y

theorem toNat_not (x : UInt32) : (~~~ x).toNat = 4294967295 - x.toNat := UInt32.toNat_not x

theorem toNat_rotateRight (x : UInt32) {k : UInt32} (h : 0 < k.toNat ∧ k.toNat < 32) :
    (rotateRight x k).toNat = turn x.toNat k.toNat := by
  have hle : k ≤ 32 := by
    rw [UInt32.le_iff_toNat_le]
    exact Nat.le_of_lt h.2
  have hs : (32 - k).toNat = 32 - k.toNat := UInt32.toNat_sub_of_le _ _ hle
  have hk : k.toNat % 32 = k.toNat := Nat.mod_eq_of_lt h.2
  have hm : (32 - k.toNat) % 32 = 32 - k.toNat := Nat.mod_eq_of_lt (by omega)
  rw [rotateRight, UInt32.toNat_or, UInt32.toNat_shiftRight, UInt32.toNat_shiftLeft, hs, hk, hm,
    turn]

theorem byteAt_eq (message : ByteArray) (i : Nat) :
    byteAt message i = (message.data.toList.getD i 0).toUInt32 := by
  rw [byteAt, List.getD_eq_getElem?_getD, Array.getElem?_toList]
  by_cases h : i < message.size
  · rw [dif_pos h, Array.getElem?_eq_getElem h]
    rfl
  · rw [dif_neg h, Array.getElem?_eq_none (Nat.le_of_not_lt h)]
    rfl

theorem toNat_wordAt (message : ByteArray) (i : Nat) :
    (wordAt message i).toNat = word (message.data.toList.drop i) := by
  simp [wordAt, word, byteAt_eq]

/-! ## The words of a block -/

theorem drop_numbers {words : Array UInt32} {i : Nat} (h : i < words.size) :
    (words.toList.map (·.toNat)).drop i =
      (words.getD i 0).toNat :: (words.toList.map (·.toNat)).drop (i + 1) := by
  have hi : i < (words.toList.map (·.toNat)).length := by simpa using h
  rw [List.drop_eq_getElem_cons hi, List.getElem_map, Array.getElem_toList,
    Array.getD_eq_getD_getElem?, Array.getElem?_eq_getElem h]
  rfl

/-- The words as numbers, the last one first. -/
def recent (words : Array UInt32) : List Nat := (words.toList.map (·.toNat)).reverse

theorem recent_push (words : Array UInt32) (w : UInt32) :
    recent (words.push w) = w.toNat :: recent words := by
  simp [recent]

theorem toNat_getD_recent {words : Array UInt32} {back : Nat} (h : back < words.size) :
    (words.getD (words.size - (back + 1)) 0).toNat = (recent words).getD back 0 := by
  have hr : back < (words.toList.map (·.toNat)).length := by simpa using h
  have hi : words.size - (back + 1) < words.size := by omega
  have hs : words.size - 1 - back = words.size - (back + 1) := by omega
  rw [recent, List.getD_eq_getElem?_getD, List.getElem?_reverse hr, List.length_map,
    Array.length_toList, hs, List.getElem?_map, Array.getElem?_toList,
    Array.getD_eq_getD_getElem?, Array.getElem?_eq_getElem hi]
  rfl

theorem recent_load (message : ByteArray) (count position : Nat) (words : Array UInt32) :
    recent (load message count position words) =
      Numeric.load count (message.data.toList.drop position) (recent words) := by
  induction count generalizing position words with
  | zero => rfl
  | succ count ih =>
    rw [load, ih, recent_push, toNat_wordAt, Numeric.load, List.drop_drop]

theorem size_load (message : ByteArray) (count position : Nat) (words : Array UInt32) :
    (load message count position words).size = words.size + count := by
  induction count generalizing position words with
  | zero => rfl
  | succ count ih =>
    rw [load, ih, Array.size_push]
    omega

theorem size_extend (count : Nat) (words : Array UInt32) :
    (extend count words).size = words.size + count := by
  induction count generalizing words with
  | zero => rfl
  | succ count ih =>
    rw [extend, ih, Array.size_push]
    omega

/-- The offsets count back from the last word, so the two agree as long as sixteen are there. -/
theorem recent_extend (count : Nat) {words : Array UInt32} (h : 16 ≤ words.size) :
    recent (extend count words) = Numeric.extend count (recent words) := by
  induction count generalizing words with
  | zero => rfl
  | succ count ih =>
    have hx := toNat_getD_recent (show 14 < words.size by omega)
    have hy := toNat_getD_recent (show 1 < words.size by omega)
    have hz := toNat_getD_recent (show 15 < words.size by omega)
    have hw := toNat_getD_recent (show 6 < words.size by omega)
    have hp (w : UInt32) : 16 ≤ (words.push w).size := by
      rw [Array.size_push]
      omega
    rw [extend, ih (hp _), recent_push]
    simp only [toNat_add, UInt32.toNat_xor, UInt32.toNat_shiftRight, toNat_rotateRight, hx, hy,
      hz, hw, UInt32.reduceToNat, Nat.reduceMod, Nat.reduceLT, and_self, Numeric.extend]

/-! ## The rounds -/

theorem words_rounds {words : Array UInt32} (h : words.size = 64) {count : Nat} (hc : count ≤ 64)
    (a b c d e f g i : UInt32) :
    (rounds words count a b c d e f g i).words.map (·.toNat) =
      Numeric.rounds (Numeric.roundConstants.drop (64 - count))
        ((words.toList.map (·.toNat)).drop (64 - count))
        a.toNat b.toNat c.toNat d.toNat e.toNat f.toNat g.toNat i.toNat := by
  induction count generalizing a b c d e f g i with
  | zero =>
    rw [List.drop_of_length_le (Nat.le_refl 64)]
    rfl
  | succ count ih =>
    -- The round takes the first of what is left of either list.
    have hi : 63 - count < words.size := by omega
    have hj : 63 - count < roundConstants.size :=
      Nat.lt_of_le_of_lt (Nat.sub_le 63 count) (by decide)
    have hs : 64 - (count + 1) = 63 - count := by omega
    have hn : 63 - count + 1 = 64 - count := by omega
    rw [hs, drop_numbers hi, Numeric.roundConstants, drop_numbers hj, hn, rounds, ih (by omega),
      Numeric.rounds]
    simp only [toNat_add, toNat_not, UInt32.toNat_xor, UInt32.toNat_and, toNat_rotateRight,
      UInt32.reduceToNat, Nat.reduceLT, and_self, Numeric.roundConstants]

theorem words_add (s r : State) :
    (State.mk (s.a + r.a) (s.b + r.b) (s.c + r.c) (s.d + r.d) (s.e + r.e) (s.f + r.f) (s.g + r.g)
      (s.h + r.h)).words.map (·.toNat) =
      List.zipWith plus (s.words.map (·.toNat)) (r.words.map (·.toNat)) := by
  simp only [State.words, List.map_cons, List.map_nil, List.zipWith_cons_cons,
    List.zipWith_nil_left, toNat_add]

theorem words_compress (message : ByteArray) (position : Nat) (s : State) :
    (compress message position s).words.map (·.toNat) =
      Numeric.compress (message.data.toList.drop position) (s.words.map (·.toNat)) := by
  have hl : (load message 16 position (Array.emptyWithCapacity 64)).size = 16 := size_load ..
  have hs : (extend 48 (load message 16 position (Array.emptyWithCapacity 64))).size = 64 := by
    rw [size_extend, hl]
  have hw :
      (extend 48 (load message 16 position (Array.emptyWithCapacity 64))).toList.map (·.toNat) =
        (Numeric.extend 48 (Numeric.load 16 (message.data.toList.drop position) [])).reverse := by
    rw [← List.reverse_reverse (List.map _ _), ← recent, recent_extend 48 (Nat.le_of_eq hl.symm),
      recent_load]
    rfl
  rw [compress, words_add, words_rounds hs (Nat.le_refl 64), hw]
  rfl

theorem compressAll_succ (message : ByteArray) (blocks position : Nat) (s : State) :
    compressAll message (blocks + 1) position s =
      compressAll message blocks (position + 64) (compress message position s) := by
  -- By `rfl` alone the kernel sets out to run the block.
  rw [compressAll.eq_def]

theorem words_compressAll (message : ByteArray) (blocks position : Nat) (s : State) :
    (compressAll message blocks position s).words.map (·.toNat) =
      Numeric.compressAll blocks (message.data.toList.drop position) (s.words.map (·.toNat)) := by
  induction blocks generalizing position s with
  | zero => rfl
  | succ blocks ih =>
    rw [compressAll_succ, ih, words_compress, Numeric.compressAll, List.drop_drop]

theorem toList_foldl_push (bytes : Bytes) (message : ByteArray) :
    (bytes.foldl ByteArray.push message).data.toList = message.data.toList ++ bytes := by
  induction bytes generalizing message with
  | nil => rw [List.append_nil]; rfl
  | cons b bytes ih =>
    rw [List.foldl_cons, ih, ByteArray.data_push, Array.toList_push, List.append_assoc]
    rfl

/-- Whatever the message, the rounds over numbers come to the words of its digest. -/
theorem words_finalState (message : ByteArray) :
    (finalState message).words.map (·.toNat) = Numeric.finalWords message.data.toList := by
  have hp : (pad message).data.toList = message.data.toList ++ padding message.data.toList.length :=
    toList_foldl_push _ _
  have hl : (pad message).size = (pad message).data.toList.length := rfl
  rw [finalState, words_compressAll, List.drop_zero, hl, hp]
  rfl

theorem bytes_finalState (message : ByteArray) :
    (finalState message).bytes = Numeric.digest message.data.toList := by
  rw [State.bytes, Numeric.digest, ← words_finalState, List.flatMap_map]

end Sha256

open Sha256 (Numeric.digest Numeric.hex Numeric.digestText)

theorem sha256_eq (message : Bytes) : sha256 message = Numeric.digest message :=
  Sha256.bytes_finalState ⟨message.toArray⟩

theorem sha256Hex_eq (text : String) : sha256Hex text = Numeric.hex text := by
  rw [sha256Hex, Sha256.bytes_finalState]
  rfl

/-! ## Blocks -/

theorem digestText_eq (ts : List Transaction) : digestText ts = Numeric.digestText ts := by
  cases ts with
  | nil => rfl
  | cons t rest => simp only [digestText, Numeric.digestText, sha256Hex_eq]

/-- What there is to evaluate when a block is checked against the one before it. -/
theorem Acceptance.fits_iff {candidate previous : Block} {difficulty : Nat} :
    Fits candidate previous difficulty ↔
      candidate.previousHash = previous.hash ∧ meetsDifficulty candidate.hash difficulty = true ∧
      Numeric.hex (Numeric.digestText candidate.transactions) = candidate.digest ∧
      Numeric.hex candidate.header.text = candidate.hash := by
  rw [← digestText_eq, ← sha256Hex_eq, ← sha256Hex_eq]
  exact ⟨fun h => ⟨h.linked, h.worked, h.digested, h.hashed⟩,
    fun ⟨hl, hw, hd, hh⟩ => ⟨hl, hw, hd, hh⟩⟩

/-! ## Signatures -/

/-- Whether a signature is one of a message with this digest. -/
def Signature.checks (publicKey signature : Bytes) (digest : Curve.Scalar) : Bool :=
  match PublicKey.point? publicKey, parts? signature with
  | some key, some (r, s) =>
    let w := Curve.inverse s
    let sum := Curve.Point.add (Curve.Point.multiple (digest * w).val Curve.Point.base)
      (Curve.Point.multiple (r * w).val key)
    match sum.affine? with
    | some (x, _) => Curve.Scalar.ofNat x.val == r
    | none => false
  | _, _ => false

theorem Signature.verify_eq (publicKey signature message : Bytes) :
    verify publicKey signature message = checks publicKey signature
      (Curve.Scalar.ofNat (Bytes.ofBigEndian (Numeric.digest message))) := by
  rw [← sha256_eq]
  rfl

end WorkLedger
