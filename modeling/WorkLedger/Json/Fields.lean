import WorkLedger.Json.Quoted
import WorkLedger.Json.Value

/-! Typed access to JSON values. A record is an object, whose unknown members are passed over and
whose known ones may not repeat, or an array with the fields in their order. -/

namespace WorkLedger.Json

namespace Value

def ofText (text : String) : Value := .string (escape text.toList)

def text? : Value → Option String
  | .string written => (unescape? written).map String.ofList
  | _ => none

def boolean? : Value → Option Bool
  | .boolean b => some b
  | _ => none

/-- A whole number in a range, both ends included. -/
def integer? (least greatest : Int) : Value → Option Int
  | .integer n => if least ≤ n ∧ n ≤ greatest then some n else none
  | _ => none

/-- A whole number below a bound that is not negative. -/
def natural? (bound : Nat) (v : Value) : Option Nat := (v.integer? 0 (bound - 1)).map Int.toNat

def list? {α : Type} (item? : Value → Option α) : Value → Option (List α)
  | .array items => items.mapM item?
  | _ => none

end Value

/-- The fields of a record that are there, by name. -/
abbrev Fields := List (String × Value)

def namedMember? (member : List Char × Value) : Option (String × Value) :=
  (unescape? member.1).map fun name => (String.ofList name, member.2)

def Value.fields? (names : List String) : Value → Option Fields
  | .array items => if items.length ≤ names.length then some (names.zip items) else none
  | .object members => do
    let known := (← members.mapM namedMember?).filter fun m => names.contains m.1
    if (known.map Prod.fst).Nodup then some known else none
  | _ => none

namespace Fields

variable {α : Type}

def required (fields : Fields) (name : String) (read? : Value → Option α) : Option α :=
  (fields.lookup name).bind read?

/-- A field that may be left out. One that is there must be readable. -/
def withDefault (fields : Fields) (name : String) (read? : Value → Option α) (default : α) :
    Option α :=
  match fields.lookup name with
  | none => some default
  | some v => read? v

end Fields

end WorkLedger.Json
