/-! Numbers of a fixed width, written in decimal. One plus sign may lead. The digits are read from
the left, and the first thing that goes wrong is the fault: a character that is no digit, or a digit
that leads out of the range. -/

namespace WorkLedger.Text.Unsigned

inductive Fault
  | empty
  | badDigit
  | tooLarge
  deriving Repr, DecidableEq

def Fault.message : Fault → String
  | .empty => "cannot parse integer from empty string"
  | .badDigit => "invalid digit found in string"
  | .tooLarge => "number too large to fit in target type"

/-- Puts the digits behind a number that is below the bound, and stays below it. -/
def digits (bound : Nat) (n : Nat) : List Char → Except Fault Nat
  | [] => .ok n
  | c :: rest =>
    if !c.isDigit then .error .badDigit
    else
      let next := 10 * n + (c.toNat - 48)
      if bound ≤ next then .error .tooLarge else digits bound next rest

/-- The number below `bound` that the text spells. -/
def read (bound : Nat) (text : String) : Except Fault Nat :=
  match text.toList with
  | [] => .error .empty
  | '+' :: c :: rest => digits bound 0 (c :: rest)
  | cs => digits bound 0 cs

end WorkLedger.Text.Unsigned
