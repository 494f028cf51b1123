import WorkLedger.Json.Quoted
import WorkLedger.Json.Value

/-! Reading JSON. The bound on the steps is computed from the length of the text: each value and
each comma takes a character, and no step asks for more than one call of each kind. -/

namespace WorkLedger.Json

def isSpace (c : Char) : Bool := c == ' ' || c == '\n' || c == '\t' || c == '\r'

def skipSpace (cs : List Char) : List Char := cs.dropWhile isSpace

def digitsValue (cs : List Char) : Nat := cs.foldl (fun n c => 10 * n + (c.toNat - 48)) 0

/-- At least one digit. -/
def digits? (cs : List Char) : Option (List Char × List Char) :=
  match cs.takeWhile Char.isDigit with
  | [] => none
  | ds => some (ds, cs.dropWhile Char.isDigit)

/-- Digits without a zero that leads others. -/
def natural? (cs : List Char) : Option (List Char × List Char) := do
  let (ds, rest) ← digits? cs
  if ds.head? == some '0' && ds.length ≠ 1 then none else some (ds, rest)

/-- What is behind a fraction, if there is one. -/
def skipFraction? : List Char → Option (List Char)
  | '.' :: rest => (digits? rest).map Prod.snd
  | cs => some cs

def skipExponent? : List Char → Option (List Char)
  | e :: rest =>
    if e = 'e' ∨ e = 'E' then
      match rest with
      | '+' :: rest => (digits? rest).map Prod.snd
      | '-' :: rest => (digits? rest).map Prod.snd
      | rest => (digits? rest).map Prod.snd
    else some (e :: rest)
  | [] => some []

/-- A number whose sign is read already. -/
def unsignedNumber? (negative : Bool) (cs : List Char) : Option (Value × List Char) := do
  let (ds, behind) ← natural? cs
  let rest ← (skipFraction? behind).bind skipExponent?
  let n := digitsValue ds
  if rest.length < behind.length ∨ (negative ∧ n = 0) then
    let literal := cs.take (cs.length - rest.length)
    return (.real (if negative then '-' :: literal else literal), rest)
  else return (.integer (if negative then -n else n), rest)

def number? : List Char → Option (Value × List Char)
  | '-' :: rest => unsignedNumber? true rest
  | cs => unsignedNumber? false cs

mutual

/-- A value at the front of the text, and what is behind it. -/
def value? : Nat → List Char → Option (Value × List Char)
  | 0, _ => none
  | _ + 1, 'n' :: 'u' :: 'l' :: 'l' :: rest => some (.null, rest)
  | _ + 1, 't' :: 'r' :: 'u' :: 'e' :: rest => some (.boolean true, rest)
  | _ + 1, 'f' :: 'a' :: 'l' :: 's' :: 'e' :: rest => some (.boolean false, rest)
  | _ + 1, '"' :: rest => (closeQuote? rest).map fun (written, rest) => (.string written, rest)
  | fuel + 1, '[' :: rest =>
    match skipSpace rest with
    | ']' :: rest => some (.array [], rest)
    | rest => (items? fuel rest).map fun (items, rest) => (.array items, rest)
  | fuel + 1, '\x7b' :: rest =>
    match skipSpace rest with
    | '\x7d' :: rest => some (.object [], rest)
    | rest => (members? fuel rest).map fun (members, rest) => (.object members, rest)
  | _ + 1, cs => number? cs

/-- Items up to the closing bracket. -/
def items? : Nat → List Char → Option (List Value × List Char)
  | 0, _ => none
  | fuel + 1, cs =>
    match value? fuel cs with
    | none => none
    | some (item, rest) =>
      match skipSpace rest with
      | ']' :: rest => some ([item], rest)
      | ',' :: rest => (items? fuel (skipSpace rest)).map fun (items, rest) => (item :: items, rest)
      | _ => none

/-- Members up to the closing brace. -/
def members? : Nat → List Char → Option (List (List Char × Value) × List Char)
  | fuel + 1, '"' :: rest =>
    match closeQuote? rest with
    | none => none
    | some (key, rest) =>
      match skipSpace rest with
      | ':' :: rest =>
        match value? fuel (skipSpace rest) with
        | none => none
        | some (value, rest) =>
          match skipSpace rest with
          | '\x7d' :: rest => some ([(key, value)], rest)
          | ',' :: rest =>
            (members? fuel (skipSpace rest)).map fun (members, rest) =>
              ((key, value) :: members, rest)
          | _ => none
      | _ => none
  | _, _ => none

end

/-- The value that a whole text spells, with nothing but space around it. -/
def Value.ofText? (text : String) : Option Value :=
  let cs := text.toList
  match value? (2 * cs.length + 2) (skipSpace cs) with
  | some (v, rest) => if (skipSpace rest).isEmpty then some v else none
  | none => none

end WorkLedger.Json
