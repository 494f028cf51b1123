/-! Texts inside JSON quotes. Writing escapes the quote, the backslash and the control characters;
reading takes every escape there is, and refuses half of a surrogate pair. -/

namespace WorkLedger.Json

def hexDigit (n : Nat) : Char := if n < 10 then Char.ofNat (48 + n) else Char.ofNat (87 + n)

def hexValue? (c : Char) : Option Nat :=
  if c.isDigit then some (c.toNat - 48)
  else if 'a' ≤ c ∧ c ≤ 'f' then some (c.toNat - 87)
  else if 'A' ≤ c ∧ c ≤ 'F' then some (c.toNat - 55)
  else none

def escapeChar (c : Char) : List Char :=
  if c = '"' then ['\\', '"']
  else if c = '\\' then ['\\', '\\']
  else if c = '\x08' then ['\\', 'b']
  else if c = '\x0c' then ['\\', 'f']
  else if c = '\n' then ['\\', 'n']
  else if c = '\r' then ['\\', 'r']
  else if c = '\t' then ['\\', 't']
  else if c.toNat < 32 then ['\\', 'u', '0', '0', hexDigit (c.toNat / 16), hexDigit (c.toNat % 16)]
  else [c]

def escape (cs : List Char) : List Char := cs.flatMap escapeChar

/-- What a backslash before a single letter stands for. -/
def escaped? : Char → Option Char
  | '"' => some '"'
  | '\\' => some '\\'
  | '/' => some '/'
  | 'b' => some '\x08'
  | 'f' => some '\x0c'
  | 'n' => some '\n'
  | 'r' => some '\r'
  | 't' => some '\t'
  | _ => none

/-- The number that four hexadecimal digits spell. -/
def unit? (a b c d : Char) : Option Nat := do
  return 4096 * (← hexValue? a) + 256 * (← hexValue? b) + 16 * (← hexValue? c) + (← hexValue? d)

/-- Code points and halves of pairs, one number each. -/
def units? : List Char → Option (List Nat)
  | [] => some []
  | '\\' :: 'u' :: a :: b :: c :: d :: rest => do
    let unit ← unit? a b c d
    return unit :: (← units? rest)
  | '\\' :: c :: rest => do
    let c ← escaped? c
    return c.toNat :: (← units? rest)
  | c :: rest => do
    return c.toNat :: (← units? rest)

def isHigh (n : Nat) : Bool := 0xd800 ≤ n && n ≤ 0xdbff
def isLow (n : Nat) : Bool := 0xdc00 ≤ n && n ≤ 0xdfff

/-- Puts pairs together, and refuses a half without its other half. -/
def joinUnits? : List Nat → Option (List Char)
  | [] => some []
  | [n] => if isHigh n || isLow n then none else some [Char.ofNat n]
  | n :: m :: rest =>
    if isHigh n && isLow m then
      (joinUnits? rest).map (Char.ofNat (0x10000 + (n - 0xd800) * 0x400 + (m - 0xdc00)) :: ·)
    else if isHigh n || isLow n then none
    else (joinUnits? (m :: rest)).map (Char.ofNat n :: ·)

/-- The text that is written this way between quotes. -/
def unescape? (written : List Char) : Option (List Char) := (units? written).bind joinUnits?

/-- Splits a text behind an opening quote at the closing one. What is before it must be well formed:
no control characters, and no escape that means nothing. -/
def closeQuote? : List Char → Option (List Char × List Char)
  | [] => none
  | '"' :: rest => some ([], rest)
  | '\\' :: 'u' :: a :: b :: c :: d :: rest => do
    let _ ← unit? a b c d
    let (written, rest) ← closeQuote? rest
    return ('\\' :: 'u' :: a :: b :: c :: d :: written, rest)
  | '\\' :: c :: rest => do
    let _ ← escaped? c
    let (written, rest) ← closeQuote? rest
    return ('\\' :: c :: written, rest)
  | c :: rest =>
    if c.toNat < 32 then none
    else do
      let (written, rest) ← closeQuote? rest
      return (c :: written, rest)

end WorkLedger.Json
