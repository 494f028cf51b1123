import Mathlib.Data.List.Nodup
import Mathlib.Data.List.Perm.Subperm
import WorkLedger.Store

/-! What an ordered map holds, and the order of stored keys. Entries under different keys are all
kept, whatever the order they are written in, and a map is known by what it holds. So a tree whose
content is replaced holds the new entries in the order of their keys, and nothing of what it held
before. Numbers written with the most significant byte first stand in their own order. -/

namespace WorkLedger

namespace OrderedMap

variable {α β : Type} [Ord α]

/-- Entries in the order of their keys, none twice. -/
def Ascending (es : List (α × β)) : Prop := es.Pairwise fun a b => compare a.1 b.1 = .lt

theorem ext_entries {m n : OrderedMap α β} (h : m.entries = n.entries) : m = n := by
  cases m
  cases n
  cases h
  rfl

/-- A new key finds its place and moves nothing else. -/
theorem insertEntry_perm [Std.LawfulEqOrd α] {key : α} {value : β} {es : List (α × β)}
    (h : key ∉ es.map Prod.fst) : (insertEntry key value es).Perm ((key, value) :: es) := by
  induction es with
  | nil => exact .refl _
  | cons e rest ih =>
    rw [List.map_cons, List.mem_cons, not_or] at h
    unfold insertEntry
    split
    · exact .refl _
    · rename_i heq
      exact absurd (Std.LawfulEqCmp.eq_of_compare heq) h.1
    · exact ((ih h.2).cons e).trans (.swap (key, value) e rest)

variable [Std.TransOrd α]

theorem Ascending.nodup_keys {es : List (α × β)} (h : Ascending es) : (es.map Prod.fst).Nodup := by
  rw [List.nodup_iff_pairwise_ne, List.pairwise_map]
  refine h.imp fun {a b} hab he => ?_
  rw [he, Std.ReflOrd.compare_self] at hab
  cases hab

/-- Entries in order are determined by what they are together. -/
theorem Ascending.eq_of_perm {es fs : List (α × β)} (he : Ascending es) (hf : Ascending fs)
    (h : es.Perm fs) : es = fs := by
  refine h.eq_of_pairwise (fun a b _ _ hab hba => ?_) he hf
  rw [Std.OrientedCmp.gt_of_lt hab] at hba
  cases hba

variable [Std.LawfulEqOrd α]

theorem insertAll_perm {es : List (α × β)} {m : OrderedMap α β}
    (h : ((m.entries ++ es).map Prod.fst).Nodup) :
    (m.insertAll es).entries.Perm (m.entries ++ es) := by
  induction es generalizing m with
  | nil => rw [List.append_nil]; exact .refl _
  | cons e es ih =>
    have hm : ((m.insert e.1 e.2).entries ++ es).Perm (m.entries ++ e :: es) := by
      have hk : e.1 ∉ m.entries.map Prod.fst := by
        rw [List.map_append, List.map_cons] at h
        intro hk
        exact (List.disjoint_of_nodup_append h) hk List.mem_cons_self
      exact ((insertEntry_perm hk).append_right es).trans List.perm_middle.symm
    have hn := ih (m := m.insert e.1 e.2) ((hm.map Prod.fst).nodup_iff.mpr h)
    exact hn.trans hm

theorem ofList_perm {es : List (α × β)} (h : (es.map Prod.fst).Nodup) :
    (ofList es).entries.Perm es :=
  insertAll_perm (m := empty) h

theorem entries_ofList {es : List (α × β)} (h : Ascending es) : (ofList es).entries = es :=
  Ascending.eq_of_perm (ofList es).ascending h (ofList_perm h.nodup_keys)

/-- A map written entry by entry in any order is the map again. -/
theorem ofList_eq_of_perm {es : List (α × β)} {m : OrderedMap α β} (h : es.Perm m.entries) :
    ofList es = m := by
  have hm : Ascending m.entries := m.ascending
  have hn : (es.map Prod.fst).Nodup := (h.map Prod.fst).nodup_iff.mpr hm.nodup_keys
  exact ext_entries (Ascending.eq_of_perm (ofList es).ascending hm ((ofList_perm hn).trans h))

theorem mem_of_mem_insertAll {es : List (α × β)} {m : OrderedMap α β} {e : α × β}
    (h : e ∈ (m.insertAll es).entries) : e ∈ m.entries ∨ e ∈ es := by
  induction es generalizing m with
  | nil => exact .inl h
  | cons f es ih =>
    rcases ih h with hm | hes
    · rcases mem_insertEntry hm with rfl | hm
      · exact .inr List.mem_cons_self
      · exact .inl hm
    · exact .inr (List.mem_cons_of_mem f hes)

/-- However many entries are written, there are no more in the end than keys to write them under. -/
theorem length_ofList_le {es : List (α × β)} {keys : List α} (h : ∀ e ∈ es, e.1 ∈ keys) :
    (ofList es).entries.length ≤ keys.length := by
  have hn : ((ofList es).entries.map Prod.fst).Nodup :=
    Ascending.nodup_keys (ofList es).ascending
  have hs : (ofList es).entries.map Prod.fst ⊆ keys := by
    intro key hk
    obtain ⟨e, he, rfl⟩ := List.mem_map.mp hk
    rcases mem_of_mem_insertAll he with he | he
    · cases he
    · exact h e he
  have hl := (List.subperm_of_subset hn hs).length_le
  rwa [List.length_map] at hl

end OrderedMap

/-! ## Trees -/

namespace Tree

open OrderedMap (ofList)

theorem entries_changeAll_drop (tree : Tree) (keys : List Bytes) :
    (tree.changeAll (keys.map fun key => (key, none))).entries =
      tree.entries.filter fun e => e.1 ∉ keys := by
  induction keys generalizing tree with
  | nil => simp [changeAll]
  | cons key keys ih =>
    have hd : (tree.change (key, none)).entries = tree.entries.filter fun e => e.1 ≠ key := by
      refine List.filter_congr fun e _ => ?_
      have hk : compare e.1 key = .eq ↔ e.1 = key := Std.LawfulEqOrd.compare_eq_iff_eq
      rw [Bool.eq_iff_iff, bne_iff_ne, decide_eq_true_eq, Ne, hk]
    rw [List.map_cons, changeAll, List.foldl_cons, ← changeAll, ih, hd, List.filter_filter]
    refine List.filter_congr fun e _ => ?_
    simp [Bool.and_comm]

theorem changeAll_write (tree : Tree) (entries : List (Bytes × Bytes)) :
    tree.changeAll (entries.map fun e => (e.1, some e.2)) = tree.insertAll entries := by
  rw [changeAll, List.foldl_map]
  rfl

/-- Whatever a tree held, it holds the new entries after that. -/
theorem changeAll_replacement (tree : Tree) (entries : List (Bytes × Bytes)) :
    tree.changeAll (tree.replacement entries) = ofList entries := by
  have hd : tree.changeAll (tree.keys.map fun key => (key, none)) = OrderedMap.empty := by
    refine OrderedMap.ext_entries ?_
    rw [entries_changeAll_drop]
    refine List.filter_eq_nil_iff.mpr fun e he => ?_
    have hk : e.1 ∈ tree.keys := List.mem_map_of_mem he
    simpa using hk
  rw [replacement, changeAll, List.foldl_append, ← changeAll, ← changeAll, hd, changeAll_write]
  rfl

end Tree

/-! ## Keys -/

namespace Bytes

theorem bigEndian_succ (width n : Nat) :
    bigEndian (width + 1) n = bigEndian width (n / 256) ++ [UInt8.ofNat n] := by
  rw [bigEndian, littleEndian, List.reverse_cons, bigEndian]

theorem compare_append {as bs : Bytes} (h : as.length = bs.length) (cs ds : Bytes) :
    compare (as ++ cs) (bs ++ ds) = (compare as bs).then (compare cs ds) := by
  induction as generalizing bs with
  | nil =>
    cases bs with
    | nil => rfl
    | cons b bs => cases h
  | cons a as ih =>
    cases bs with
    | nil => cases h
    | cons b bs =>
      rw [List.cons_append, List.cons_append, List.compare_cons_cons, List.compare_cons_cons,
        ih (Nat.succ.inj h), Ordering.then_assoc]

/-- Of two numbers that fit into the width, the smaller one comes first. -/
theorem compare_bigEndian_lt {width m n : Nat} (hmn : m < n) (hn : n < Nat.pow 256 width) :
    compare (bigEndian width m) (bigEndian width n) = .lt := by
  induction width generalizing m n with
  | zero =>
    have hp : Nat.pow 256 0 = 1 := rfl
    omega
  | succ width ih =>
    have hp : Nat.pow 256 (width + 1) = Nat.pow 256 width * 256 := rfl
    rw [bigEndian_succ, bigEndian_succ, compare_append (by simp)]
    by_cases hd : m / 256 = n / 256
    · have hb : (UInt8.ofNat m) < UInt8.ofNat n := by
        rw [UInt8.lt_iff_toNat_lt, UInt8.toNat_ofNat', UInt8.toNat_ofNat']
        omega
      rw [hd, Std.ReflOrd.compare_self, Ordering.eq_then, List.compare_cons_cons,
        Std.compare_eq_lt.mpr hb]
      rfl
    · rw [ih (by omega) (by omega)]
      rfl

end Bytes

end WorkLedger
