import WorkLedger.Text.Scan
import WorkLedger.Toml.Number

/-! Reading a TOML document: first its statements, one or more lines each, then the tables that the
statements build. Values may be nested less than 80 deep, and a dotted key has less than 80 parts.
-/

namespace WorkLedger.Toml

open Scan

def depthLimit : Nat := 80

/-! ## Blanks and comments -/

def isBlank (c : Char) : Bool := c == ' ' || c == '\t'

/-- Characters that a line may hold. -/
def isLineChar (c : Char) : Bool := c == '\t' || (32 ≤ c.toNat && c.toNat ≠ 127)

def blanks : Scan Unit := do
  let _ ← span isBlank

def newline : Scan Unit := char '\n' <|> word ['\r', '\n']

def comment : Scan Unit := do
  char '#'
  let _ ← span isLineChar

/-- The rest of a line behind a statement. -/
def lineEnd : Scan Unit := do
  blanks
  let _ ← optional comment
  newline <|> ended

/-- Blanks, comments and line breaks. -/
def gap : Scan Unit := do
  let _ ← many (do blanks; let _ ← optional comment; newline)
  blanks

/-! ## Texts -/

def hexNumber (width : Nat) : Scan Nat := do
  let digits ← (List.replicate width ()).mapM fun _ => satisfy isHexDigit
  return valueIn 16 digits

/-- The character with a given number, which must be one. -/
def codePoint (width : Nat) : Scan Char := do
  let n ← hexNumber width
  if n.isValidChar then return Char.ofNat n else failure

def escaped : Scan Char := do
  char '\\'
  match ← satisfy fun _ => true with
  | 'b' => return '\x08'
  | 't' => return '\t'
  | 'n' => return '\n'
  | 'f' => return '\x0c'
  | 'r' => return '\r'
  | '"' => return '"'
  | '\\' => return '\\'
  | 'u' => codePoint 4
  | 'U' => codePoint 8
  | _ => failure

/-- A character that stands for itself, in a text closed by `quote`. -/
def plain (quote : Char) : Scan Char := satisfy fun c => isLineChar c && c != quote

def escapable : Scan Char := satisfy (fun c => isLineChar c && c != '"' && c != '\\') <|> escaped

def basicText : Scan (List Char) := char '"' *> many escapable <* char '"'

def literalText : Scan (List Char) := char '\'' *> many (plain '\'') <* char '\''

/-- A backslash at the end of a line drops the blanks and breaks up to the next character. -/
def continuation : Scan (List Char) := do
  char '\\'
  blanks
  newline
  let _ ← many ((do let _ ← satisfy isBlank) <|> newline)
  return []

/-- One or two quotes that close nothing. -/
def looseQuotes (quote : Char) : Scan (List Char) := do
  let quotes ← word [quote, quote] *> pure [quote, quote] <|> char quote *> pure [quote]
  match ← ahead with
  | some c => if c = quote then failure else return quotes
  | none => failure

/-- Three quotes, with up to two more in front that belong to the text. -/
def closing (quote : Char) : Scan (List Char) :=
  (word (List.replicate 5 quote) *> pure [quote, quote]) <|>
    (word (List.replicate 4 quote) *> pure [quote]) <|>
    (word (List.replicate 3 quote) *> pure [])

def longText (quote : Char) (piece : Scan (List Char)) : Scan (List Char) := do
  word (List.replicate 3 quote)
  let _ ← optional newline
  let pieces ← many (piece <|> (newline *> pure ['\n']) <|> looseQuotes quote)
  return pieces.flatten ++ (← closing quote)

def longBasicText : Scan (List Char) :=
  longText '"' (continuation <|> (List.singleton <$> escapable))

def longLiteralText : Scan (List Char) := longText '\'' (List.singleton <$> plain '\'')

def text : Scan (List Char) := longBasicText <|> basicText <|> longLiteralText <|> literalText

/-! ## Keys -/

def isBareChar (c : Char) : Bool := c.isAlphanum || c == '_' || c == '-'

def keyPart : Scan String :=
  String.ofList <$> (blanks *> (basicText <|> literalText <|> span1 isBareChar) <* blanks)

/-- The parts of a dotted key before the last, and the last. -/
def key : Scan (List String × String) := do
  let parts ← separated keyPart (char '.')
  match parts.getLast? with
  | some last => if parts.length < depthLimit then return (parts.dropLast, last) else failure
  | none => failure

/-! ## Values -/

def isWordChar (c : Char) : Bool :=
  c.isAlphanum || c == '_' || c == '+' || c == '-' || c == '.' || c == ':'

/-- A blank between a date and a time joins them. -/
def wordValue : Scan Value := do
  let first ← span1 isWordChar
  let joined ← optional (do
    char ' '
    let c ← satisfy Char.isDigit
    return c :: (← span isWordChar))
  match joined with
  | some second =>
    if isDate first && isTime true second then
      return .moment (String.ofList (first ++ ' ' :: second))
    else failure
  | none =>
    match word? first with
    | some v => return v
    | none => failure

def array (item : Scan Value) : Scan Value := do
  char '['
  let items ← optional (separated (gap *> item <* gap) (char ',') <* optional (char ','))
  gap
  char ']'
  return .array (items.getD [])

/-- A table in braces, on one line. -/
def braces (item : Scan Value) : Scan Value := do
  char '\x7b'
  blanks
  let entry := do
    let (path, last) ← key
    char '='
    return (path, last, ← blanks *> item <* blanks)
  let entries ← optional (separated entry (char ','))
  char '\x7d'
  match (entries.getD []).foldlM
      (fun inner (path, last, v) => Entries.addDotted? path last v .braces inner) [] with
  | some inner => return .table .braces inner
  | none => failure

/-- A value with less than so many brackets around its parts. -/
def value : Nat → Scan Value
  | 0 => failure
  | depth + 1 =>
    (do return .text (String.ofList (← text))) <|>
      (do if depth = 0 then failure else array (value depth)) <|>
      (do if depth = 0 then failure else braces (value depth)) <|>
      wordValue

/-! ## Documents -/

def nextHeader : Scan Statement := do
  word ['[', '[']
  let (path, last) ← key
  word [']', ']']
  return .nextHeader path last

def header : Scan Statement := do
  char '['
  let (path, last) ← key
  char ']'
  return .header path last

def entry : Scan Statement := do
  let (path, last) ← key
  char '='
  blanks
  return .entry path last (← value depthLimit)

def line : Scan (Option Statement) :=
  blanks *> ((some <$> (nextHeader <|> header <|> entry) <* lineEnd) <|>
    comment *> lineEnd *> pure none <|>
    newline *> pure none)

/-- A mark of the byte order may stand in front of a document. -/
def statements : Scan (List Statement) := do
  let _ ← optional (char '\ufeff')
  let lines ← many line
  blanks
  return lines.filterMap id

/-- The entries of a document, if it is one. -/
def Document.ofText? (document : String) : Option Entries :=
  (whole? statements document).bind Document.build?

end WorkLedger.Toml
