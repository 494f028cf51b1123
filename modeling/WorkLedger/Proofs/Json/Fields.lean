import WorkLedger.Json.Fields
import WorkLedger.Proofs.Json.Document

/-! Records, written and read. What is written for a field is the value that its reader takes for
that field again, and it is a value that comes back from a document as it went in. -/

namespace WorkLedger.Json

variable {α β : Type}

/-! ## Items -/

section

variable {γ : Type} {m : Type → Type} [Monad m] [LawfulMonad m] {read : β → m γ} {write : α → β}

/-- A list is read item by item, so what is known of each item is known of the list. -/
theorem mapM_map_eq_pure {f : α → γ} (h : ∀ x, read (write x) = pure (f x)) (xs : List α) :
    (xs.map write).mapM read = pure (xs.map f) := by
  have hread : read ∘ write = fun x => pure (f x) := funext h
  rw [List.mapM_map, hread, List.mapM_pure]

theorem mapM_map_eq_pure_self {read : β → m α} (h : ∀ x, read (write x) = pure x)
    (xs : List α) : (xs.map write).mapM read = pure xs := by
  rw [mapM_map_eq_pure (f := id) h, List.map_id]

end

/-! ## Values -/

/-- The value comes back from its text, and is read as `x`. -/
structure Spells (read? : Value → Option α) (v : Value) (x : α) : Prop where
  plain : Plain v
  reads : read? v = some x

namespace Spells

variable {read? : Value → Option α} {v : Value} {x : α}

theorem text (s : String) : Spells Value.text? (Value.ofText s) s where
  plain := .string (closed_escape s.toList)
  reads := by
    rw [Value.ofText, Value.text?, unescape?_escape, Option.map_some, String.ofList_toList]

theorem integer {least greatest n : Int} (hl : least ≤ n) (hg : n ≤ greatest) :
    Spells (Value.integer? least greatest) (.integer n) n where
  plain := .integer n
  reads := if_pos ⟨hl, hg⟩

theorem natural {bound n : Nat} (h : n < bound) :
    Spells (Value.natural? bound) (.integer n) n where
  plain := .integer n
  reads := by
    rw [Value.natural?, (integer (Int.natCast_nonneg n) (by omega)).reads]
    rfl

/-- A reader that goes on with what another one has read. -/
theorem map (h : Spells read? v x) (f : α → β) :
    Spells (fun v => (read? v).map f) v (f x) where
  plain := h.plain
  reads := by rw [h.reads, Option.map_some]

theorem list {write : β → Value} {f : β → α} (h : ∀ x, Spells read? (write x) (f x))
    (xs : List β) : Spells (Value.list? read?) (.array (xs.map write)) (xs.map f) where
  plain := .array (List.forall_mem_map.mpr fun x _ => (h x).plain)
  reads := mapM_map_eq_pure (fun x => (h x).reads) xs

/-- What a document spells. -/
theorem ofText? (h : Spells read? v x) : (Value.ofText? v.text).bind read? = some x := by
  rw [ofText?_text h.plain, Option.bind_some, h.reads]

end Spells

/-! ## Objects -/

/-- The members of an object with these fields. -/
def Fields.members (fields : Fields) : List (List Char × Value) :=
  fields.map fun field => (escape field.1.toList, field.2)

theorem namedMember?_escape (field : String × Value) :
    namedMember? (escape field.1.toList, field.2) = some field := by
  rw [namedMember?, unescape?_escape, Option.map_some, String.ofList_toList]

theorem mapM_namedMember? (fields : Fields) : fields.members.mapM namedMember? = some fields :=
  mapM_map_eq_pure_self namedMember?_escape fields

/-- Fields under the names that are asked for, each once, are all read. -/
theorem Spells.object (fields : Fields) {names : List String} (hn : names.Nodup)
    (hf : fields.map Prod.fst = names) (hp : ∀ field ∈ fields, Plain field.2) :
    Spells (Value.fields? names) (.object fields.members) fields where
  plain := .object (List.forall_mem_map.mpr fun _ _ => closed_escape _) (List.forall_mem_map.mpr hp)
  reads := by
    have hall : fields.filter (fun field => names.contains field.1) = fields := by
      refine List.filter_eq_self.mpr fun field hfield => ?_
      rw [List.contains_iff_mem, ← hf]
      exact List.mem_map_of_mem hfield
    rw [Value.fields?, mapM_namedMember?]
    simp only [Option.bind_eq_bind, Option.bind_some, hall, hf, if_pos hn]

end WorkLedger.Json
