/-! JSON values. Strings and keys are kept as they are written between the quotes, escapes and all:
an escape may name half of a surrogate pair, and what holds one spells no text. -/

namespace WorkLedger.Json

inductive Value
  | null
  | boolean (b : Bool)
  | integer (n : Int)
  /-- A number with a fraction or an exponent, or a negative zero, as it is written. -/
  | real (literal : List Char)
  | string (written : List Char)
  | array (items : List Value)
  | object (members : List (List Char × Value))

end WorkLedger.Json
