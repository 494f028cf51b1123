/-! Maps whose entries stand in the order of their keys. Two maps with the same entries are equal,
so what a map was before a key was written is forgotten once the key is written. -/

namespace WorkLedger

structure OrderedMap (α β : Type) [Ord α] where
  entries : List (α × β)
  ascending : entries.Pairwise fun a b => compare a.1 b.1 = .lt

namespace OrderedMap

variable {α β : Type} [Ord α]

def empty : OrderedMap α β := ⟨[], .nil⟩

instance : Inhabited (OrderedMap α β) := ⟨empty⟩

def size (m : OrderedMap α β) : Nat := m.entries.length
def isEmpty (m : OrderedMap α β) : Bool := m.entries.isEmpty
def keys (m : OrderedMap α β) : List α := m.entries.map Prod.fst
def values (m : OrderedMap α β) : List β := m.entries.map Prod.snd

def get? (m : OrderedMap α β) (key : α) : Option β :=
  (m.entries.find? fun e => compare e.1 key == .eq).map Prod.snd

def contains (m : OrderedMap α β) (key : α) : Bool := (m.get? key).isSome

def insertEntry (key : α) (value : β) : List (α × β) → List (α × β)
  | [] => [(key, value)]
  | e :: rest =>
    match compare key e.1 with
    | .lt => (key, value) :: e :: rest
    | .eq => (key, value) :: rest
    | .gt => e :: insertEntry key value rest

theorem mem_insertEntry {key : α} {value : β} {es : List (α × β)} {e : α × β}
    (h : e ∈ insertEntry key value es) : e = (key, value) ∨ e ∈ es := by
  induction es with
  | nil => simpa [insertEntry] using h
  | cons f rest ih =>
    simp only [insertEntry] at h
    split at h
    · simpa using h
    · rcases List.mem_cons.mp h with h | h
      · exact .inl h
      · exact .inr (List.mem_cons_of_mem _ h)
    · rcases List.mem_cons.mp h with h | h
      · exact .inr (h ▸ List.mem_cons_self)
      · exact (ih h).imp id (List.mem_cons_of_mem _)

theorem insertEntry_ascending [Std.TransOrd α] [Std.LawfulEqOrd α] (key : α) (value : β)
    {es : List (α × β)} (h : es.Pairwise fun a b => compare a.1 b.1 = .lt) :
    (insertEntry key value es).Pairwise fun a b => compare a.1 b.1 = .lt := by
  induction es with
  | nil => simp [insertEntry]
  | cons f rest ih =>
    obtain ⟨before, tail⟩ := List.pairwise_cons.mp h
    simp only [insertEntry]
    split
    · rename_i lt
      refine List.pairwise_cons.mpr ⟨fun e he => ?_, h⟩
      rcases List.mem_cons.mp he with rfl | he
      · exact lt
      · exact Std.TransCmp.lt_trans lt (before e he)
    · rename_i eq
      have same : key = f.1 := Std.LawfulEqCmp.eq_of_compare eq
      exact List.pairwise_cons.mpr ⟨fun e he => same ▸ before e he, tail⟩
    · rename_i gt
      refine List.pairwise_cons.mpr ⟨fun e he => ?_, ih tail⟩
      rcases mem_insertEntry he with rfl | he
      · exact Std.OrientedCmp.gt_iff_lt.mp gt
      · exact before e he

variable [Std.TransOrd α] [Std.LawfulEqOrd α]

/-- Writes an entry; what was under the key is lost. -/
def insert (m : OrderedMap α β) (key : α) (value : β) : OrderedMap α β :=
  ⟨insertEntry key value m.entries, insertEntry_ascending key value m.ascending⟩

def erase (m : OrderedMap α β) (key : α) : OrderedMap α β :=
  ⟨m.entries.filter fun e => compare e.1 key != .eq, m.ascending.filter _⟩

/-- Writes entries one after the other, so the last one of a key stays. -/
def insertAll (m : OrderedMap α β) (entries : List (α × β)) : OrderedMap α β :=
  entries.foldl (fun m e => m.insert e.1 e.2) m

def ofList (entries : List (α × β)) : OrderedMap α β := empty.insertAll entries

end OrderedMap

end WorkLedger
