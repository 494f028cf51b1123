/-! Reading a text from the front. A scan takes characters and gives a value, or it refuses and has
taken none. Repetition is bounded by the length of the text, so a scan that takes a character each
time is never stopped by the bound. -/

namespace WorkLedger

abbrev Scan := StateT (List Char) Option

namespace Scan

variable {α : Type}

def satisfy (p : Char → Bool) : Scan Char
  | [] => none
  | c :: rest => if p c then some (c, rest) else none

def char (c : Char) : Scan Unit := do
  let _ ← satisfy (· == c)

/-- Exactly these characters. -/
def word (cs : List Char) : Scan Unit := cs.forM char

/-- All characters up to the first that `p` refuses. -/
def span (p : Char → Bool) : Scan (List Char) := fun cs => some (cs.takeWhile p, cs.dropWhile p)

/-- At least one character, up to the first that `p` refuses. -/
def span1 (p : Char → Bool) : Scan (List Char) := do
  let c ← satisfy p
  return c :: (← span p)

/-- The next character, which is not taken. -/
def ahead : Scan (Option Char) := fun cs => some (cs.head?, cs)

def ended : Scan Unit
  | [] => some ((), [])
  | _ :: _ => none

def upTo (x : Scan α) : Nat → Scan (List α)
  | 0 => pure []
  | n + 1 => (do
      let a ← x
      return a :: (← upTo x n)) <|> pure []

/-- As often as it goes. -/
def many (x : Scan α) : Scan (List α) := fun cs => upTo x cs.length cs

/-- One or more, with `sep` between them. -/
def separated (x : Scan α) (sep : Scan Unit) : Scan (List α) := do
  let a ← x
  return a :: (← many (sep *> x))

/-- The value that the whole text spells. -/
def whole? (x : Scan α) (text : String) : Option α :=
  match (x <* ended) text.toList with
  | some (a, _) => some a
  | none => none

end Scan

end WorkLedger
