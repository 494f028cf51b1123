import WorkLedger.Toml.Table

/-! Numbers, dates and the other values that are written as one word. A word is one of these as a
whole, or it is nothing. -/

namespace WorkLedger.Toml

/-- Digits, with single underscores between them left out. -/
def ungroup? (isDigit : Char → Bool) : List Char → Option (List Char)
  | [] => none
  | [c] => if isDigit c then some [c] else none
  | c :: '_' :: rest => if isDigit c then (ungroup? isDigit rest).map (c :: ·) else none
  | c :: rest => if isDigit c then (ungroup? isDigit rest).map (c :: ·) else none

def isHexDigit (c : Char) : Bool :=
  c.isDigit || ('a' ≤ c && c ≤ 'f') || ('A' ≤ c && c ≤ 'F')

def digitValue (c : Char) : Nat :=
  if c.isDigit then c.toNat - 48 else if 'a' ≤ c then c.toNat - 87 else c.toNat - 55

def valueIn (base : Nat) (digits : List Char) : Nat :=
  digits.foldl (fun n c => base * n + digitValue c) 0

/-- The sign of a number, and what is behind it. -/
def signed : List Char → Bool × List Char
  | '+' :: rest => (false, rest)
  | '-' :: rest => (true, rest)
  | cs => (false, cs)

/-- Decimal digits without a zero that leads others. -/
def unpadded? (cs : List Char) : Option (List Char) := do
  let digits ← ungroup? Char.isDigit cs
  if digits.head? == some '0' && digits.length ≠ 1 then none else some digits

def unprefixed? (base : Nat) (isDigit : Char → Bool) (cs : List Char) : Option Int :=
  (ungroup? isDigit cs).map fun digits => (valueIn base digits : Int)

/-- Decimal, or with a base in front and no sign; the range is that of signed 64-bit numbers. -/
def integer? (word : List Char) : Option Int := do
  let n ← match word with
    | '0' :: 'x' :: rest => unprefixed? 16 isHexDigit rest
    | '0' :: 'o' :: rest => unprefixed? 8 (fun c => '0' ≤ c && c ≤ '7') rest
    | '0' :: 'b' :: rest => unprefixed? 2 (fun c => c == '0' || c == '1') rest
    | _ =>
      let (negative, rest) := signed word
      (unpadded? rest).map fun digits =>
        if negative then -(valueIn 10 digits : Int) else (valueIn 10 digits : Int)
  if Int64.minValue.toInt ≤ n ∧ n ≤ Int64.maxValue.toInt then some n else none

/-- The least number that double precision rounds to one it cannot hold. -/
def overflowBound : Nat := Nat.pow 2 1024 - Nat.pow 2 970

/-- Whether `m * 10 ^ e` rounds to a number that double precision cannot hold. -/
def overflows (m : Nat) (e : Int) : Bool :=
  let size : Int := (toString m).length + e
  if m = 0 ∨ size < 300 then false
  else if 320 < size then true
  else if 0 ≤ e then overflowBound ≤ m * Nat.pow 10 e.toNat
  else overflowBound * Nat.pow 10 (-e).toNat ≤ m

def isExponentMark (c : Char) : Bool := c == 'e' || c == 'E'

/-- The value of an exponent behind its mark. -/
def exponent? (cs : List Char) : Option Int := do
  let (negative, rest) := signed cs
  let digits ← ungroup? Char.isDigit rest
  return if negative then -(valueIn 10 digits : Int) else (valueIn 10 digits : Int)

/-- A fraction, an exponent or both behind a whole number. -/
def isDecimal (negative : Bool) (cs : List Char) : Bool :=
  let (mantissa, mark) := cs.span (!isExponentMark ·)
  let (front, back) := mantissa.span (· != '.')
  let digits := do
    let front ← unpadded? front
    let back ← match back with
      | [] => some []
      | _ :: back => ungroup? Char.isDigit back
    let e ← match mark with
      | [] => some 0
      | _ :: rest => exponent? rest
    return (valueIn 10 (front ++ back), e - (back.length : Int))
  match digits with
  | none => false
  | some (m, e) => !(back.isEmpty && mark.isEmpty) && (negative || !overflows m e)

def isFloat (word : List Char) : Bool :=
  let (negative, rest) := signed word
  rest == ['i', 'n', 'f'] || rest == ['n', 'a', 'n'] || isDecimal negative rest

/-- A number of exactly so many digits. -/
def fixed? (digits : List Char) : Option Nat :=
  if digits.all Char.isDigit then some (valueIn 10 digits) else none

def daysIn (year month : Nat) : Nat :=
  if month = 2 then
    if year % 4 = 0 ∧ (year % 100 ≠ 0 ∨ year % 400 = 0) then 29 else 28
  else if month = 4 ∨ month = 6 ∨ month = 9 ∨ month = 11 then 30
  else 31

def isDate : List Char → Bool
  | [y1, y2, y3, y4, '-', m1, m2, '-', d1, d2] =>
    match fixed? [y1, y2, y3, y4], fixed? [m1, m2], fixed? [d1, d2] with
    | some year, some month, some day =>
      1 ≤ month && month ≤ 12 && 1 ≤ day && day ≤ daysIn year month
    | _, _, _ => false
  | _ => false

def isBelow (bound : Nat) (digits : List Char) : Bool := (fixed? digits).any (· < bound)

/-- What may stand behind the seconds: more digits of them, and the distance to universal time. -/
def isZone : List Char → Bool
  | [] => true
  | [c] => c == 'Z' || c == 'z'
  | [sign, h1, h2, ':', m1, m2] =>
    (sign == '+' || sign == '-') && isBelow 24 [h1, h2] && isBelow 60 [m1, m2]
  | _ => false

def isTime (zoned : Bool) : List Char → Bool
  | h1 :: h2 :: ':' :: m1 :: m2 :: ':' :: s1 :: s2 :: rest =>
    let behind := match rest with
      | '.' :: c :: rest => if c.isDigit then some (rest.dropWhile Char.isDigit) else none
      | '.' :: [] => none
      | rest => some rest
    isBelow 24 [h1, h2] && isBelow 60 [m1, m2] && isBelow 61 [s1, s2] &&
      behind.any fun rest => if zoned then isZone rest else rest.isEmpty
  | _ => false

/-- A date and a time with a `T` between them, or one of both alone. -/
def isMoment (word : List Char) : Bool :=
  isDate word || isTime false word ||
    (isDate (word.take 10) &&
      match word.drop 10 with
      | c :: rest => (c == 'T' || c == 't') && isTime true rest
      | [] => false)

/-- The value of a word. -/
def word? (word : List Char) : Option Value :=
  if word = "true".toList then some (.boolean true)
  else if word = "false".toList then some (.boolean false)
  else if isMoment word then some (.moment (String.ofList word))
  else if isFloat word then some (.float (String.ofList word))
  else (integer? word).map .integer

end WorkLedger.Toml
