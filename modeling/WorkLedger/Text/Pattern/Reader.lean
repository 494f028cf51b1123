import WorkLedger.Text.Blank
import WorkLedger.Text.Pattern.Room
import WorkLedger.Text.Scan

/-! Reading patterns. There are no tables of Unicode here: sets of digits, blanks or words are for
ASCII only, where that is asked for, and so is taking both cases of a letter as the same. -/

namespace WorkLedger.Text.Pattern

/-- What letters between parentheses turn on and off. -/
structure Modes where
  bothCases : Bool := false
  /-- Places at line breaks are places where lines begin and end. -/
  lines : Bool := false
  /-- A point takes line feeds too. -/
  anyChar : Bool := false
  /-- Carriage returns break lines. -/
  wideLines : Bool := false
  /-- Blanks and comments do not count. -/
  spaced : Bool := false
  /-- Sets are of characters of any script, else of ASCII. -/
  unicode : Bool := true

structure Reading where
  modes : Modes := {}
  /-- The names of groups so far. -/
  names : List (List Char) := []

abbrev Reader := StateT Reading Scan

/-- What is read, with how deep it is nested. -/
structure Nested (α : Type) where
  value : α
  depth : Nat

/-- How deep a pattern may be nested. -/
def depthLimit : Nat := 250

namespace Reader

variable {α : Type}

def modes : Reader Modes := return (← get).modes

/-- As often as it goes. -/
def manyUpTo (x : Reader α) : Nat → Reader (List α)
  | 0 => pure []
  | n + 1 => (do
      let a ← x
      return a :: (← manyUpTo x n)) <|> pure []

def many (x : Reader α) : Reader (List α) := do
  let rest ← (StateT.get : Scan (List Char))
  manyUpTo x rest.length

/-- The next character, which is not taken. -/
def next : Reader Char := do
  match ← Scan.ahead with
  | some c => return c
  | none => failure

def skip (c : Char) : Reader Unit := Scan.char c

def skipWord (text : String) : Reader Unit := Scan.word text.toList

def anyOne : Reader Char := Scan.satisfy fun _ => true

def taken (x : Reader Unit) : Reader Bool := (do x; return true) <|> pure false

/-- Blanks and comments, if they do not count. -/
def space : Reader Unit := do
  if (← modes).spaced then
    let _ ← Scan.span isBlank
    let _ ← many (do
      skip '#'
      let _ ← Scan.span (· != '\n')
      let _ ← Scan.span isBlank)

/-- The depth of parts next to each other. One part alone adds nothing. -/
def depthOf (depths : List Nat) : Nat :=
  match depths with
  | [] => 0
  | [depth] => depth
  | depths => depths.foldl max 0 + 1

/-! ## What a backslash begins -/

inductive Escaped
  /-- A character. Two digits that spell it stand for a byte. -/
  | char (c : Char) (byByte : Bool)
  | set (s : CharSet)
  | place (p : Pattern)

def asciiDigits : CharSet := .ofRanges [(0x30, 0x39)]

def asciiBlanks : CharSet := .ofRanges [(0x09, 0x0d), (0x20, 0x20)]

def asciiWords : CharSet := .ofRanges [(0x30, 0x39), (0x41, 0x5a), (0x5f, 0x5f), (0x61, 0x7a)]

def hexValue (digits : List Char) : Nat :=
  digits.foldl (fun acc c => acc * 16 + (if c.isDigit then c.toNat - 48 else c.toLower.toNat - 87)) 0

def isHexDigit (c : Char) : Bool :=
  c.isDigit || ('a' ≤ c && c ≤ 'f') || ('A' ≤ c && c ≤ 'F')

def charOf (digits : List Char) : Reader Char :=
  let n := hexValue digits
  if digits ≠ [] ∧ n.isValidChar then return Char.ofNat n else failure

def hexDigit : Reader Char := do
  let c ← Scan.satisfy isHexDigit
  space
  return c

/-- A character by its number: so many digits, or any between braces. -/
def byNumber (width : Nat) : Reader Escaped := do
  space
  if ← taken (skip '\x7b') then
    space
    let digits ← many hexDigit
    skip '\x7d'
    space
    return .char (← charOf digits) false
  else
    let digits ← (List.replicate width ()).mapM fun _ => hexDigit
    return .char (← charOf digits) (width == 2)

/-- Sets that a letter names. Beyond ASCII they are not known. -/
def named (set : CharSet) (inside : Bool) : Reader Escaped := do
  if (← modes).unicode || !inside then failure else return .set set

/-- Characters that a backslash takes their meaning from. -/
def isMark (c : Char) : Bool := c.toNat < 0x80 && !c.isAlphanum && c != '<' && c != '>'

def wordPlace (kind : Border) : Reader Escaped :=
  return .place (if (← modes).unicode then .unknown else .border kind)

def bracedWordPlace : Reader Escaped := do
  skip '\x7b'
  space
  let name ← many (do
    let c ← Scan.satisfy fun c => c.isAlpha || c == '-'
    space
    return c)
  skip '\x7d'
  match String.ofList name with
  | "start" => wordPlace .wordStart
  | "end" => wordPlace .wordEnd
  | "start-half" => wordPlace .noWordBefore
  | "end-half" => wordPlace .noWordBehind
  | _ => failure

/-- Braces with letters ask for a certain edge of a word; other braces say how often. -/
def edgePlace : Reader Escaped := do
  let named ← taken (do
    let cs ← (StateT.get : Scan (List Char))
    skip '\x7b'
    space
    let _ ← Scan.satisfy fun c => c.isAlpha || c == '-'
    (StateT.set cs : Scan Unit))
  if named then bracedWordPlace else wordPlace .wordEdge

def escaped : Reader Escaped := do
  skip '\\'
  let c ← anyOne
  match c with
  | 'x' => byNumber 2
  | 'u' => byNumber 4
  | 'U' => byNumber 8
  | 'd' => named asciiDigits true
  | 's' => named asciiBlanks true
  | 'w' => named asciiWords true
  | 'D' => named asciiDigits false
  | 'S' => named asciiBlanks false
  | 'W' => named asciiWords false
  | 'a' => return .char '\x07' false
  | 'f' => return .char '\x0c' false
  | 't' => return .char '\t' false
  | 'n' => return .char '\n' false
  | 'r' => return .char '\r' false
  | 'v' => return .char '\x0b' false
  | 'A' => return .place (.border .textStart)
  | 'z' => return .place (.border .textEnd)
  | 'b' => edgePlace
  | 'B' => wordPlace .noWordEdge
  | '<' => wordPlace .wordStart
  | '>' => wordPlace .wordEnd
  | c => if isMark c then return .char c false else failure

/-! ## Sets between brackets -/

/-- The set with both cases of its letters, if that is asked for. -/
def folded (s : CharSet) : Reader CharSet := do
  let m ← modes
  if !m.bothCases || s.isEmpty then return s
  else if m.unicode then failure
  else return s.withBothCases

/-- A set of ASCII characters has no opposite among them. -/
def opposite (outside : Bool) (s : CharSet) : Reader CharSet := do
  if !outside then return s
  else if (← modes).unicode then return s.complement
  else failure

/-- The sets that have a name between colons. -/
def classes : List (String × List (Nat × Nat)) :=
  [("alnum", [(0x30, 0x39), (0x41, 0x5a), (0x61, 0x7a)]), ("alpha", [(0x41, 0x5a), (0x61, 0x7a)]),
    ("ascii", [(0x00, 0x7f)]), ("blank", [(0x09, 0x09), (0x20, 0x20)]),
    ("cntrl", [(0x00, 0x1f), (0x7f, 0x7f)]), ("digit", [(0x30, 0x39)]), ("graph", [(0x21, 0x7e)]),
    ("lower", [(0x61, 0x7a)]), ("print", [(0x20, 0x7e)]),
    ("punct", [(0x21, 0x2f), (0x3a, 0x40), (0x5b, 0x60), (0x7b, 0x7e)]),
    ("space", [(0x09, 0x0d), (0x20, 0x20)]), ("upper", [(0x41, 0x5a)]),
    ("word", [(0x30, 0x39), (0x41, 0x5a), (0x5f, 0x5f), (0x61, 0x7a)]),
    ("xdigit", [(0x30, 0x39), (0x41, 0x46), (0x61, 0x66)])]

/-- The name of a set, and whether its opposite is meant. -/
def className : Reader (CharSet × Bool) := do
  skipWord "[:"
  let outside ← taken (skip '^')
  let name ← Scan.span (· != ':')
  skipWord ":]"
  match classes.lookup (String.ofList name) with
  | some ranges => return (.ofRanges ranges, outside)
  | none => failure

/-- A character of a set as it is written. -/
inductive Member
  | char (c : Char)
  | set (s : CharSet)

def member : Reader Member := do
  let m ← modes
  let e ← if (← next) = '\\' then escaped else return .char (← among m (← anyOne))
  match e with
  | .char c _ => return .char (← among m c)
  | .set s => return .set s
  | .place _ => failure
where
  among (m : Modes) (c : Char) : Reader Char :=
    if m.unicode || c.toNat < 0x80 then return c else failure

/-- Whether a hyphen is next that joins two characters. -/
def joining : Reader Bool := do
  let cs ← (StateT.get : Scan (List Char))
  let joins ← taken (do
    skip '-'
    space
    let c ← next
    if c = ']' || c = '-' then failure)
  (StateT.set cs : Scan Unit)
  return joins

def rangeOrMember : Reader CharSet := do
  let first ← member
  space
  if ← joining then
    skip '-'
    space
    match first, ← member with
    | .char a, .char b => if a ≤ b then return ⟨[(a.toNat, b.toNat)]⟩ else failure
    | _, _ => failure
  else
    match first with
    | .char c => return .ofChar c
    | .set s => return s

/-- What two sets are joined by. -/
def operators : List (String × (CharSet → CharSet → CharSet)) :=
  [("&&", .inter), ("--", .diff), ("~~", .symmDiff)]

def operator : Reader (CharSet → CharSet → CharSet) := do
  space
  operators.foldr (fun (text, f) other => (do skipWord text; return f) <|> other) failure

/-- A part of a set: a set with a name, a set in brackets of its own, a range or a character. -/
def setItem (nested : Reader (Nested CharSet)) : Reader (Nested CharSet) := do
  space
  let c ← next
  if c = '[' then
    match ← optional className with
    | some (s, outside) => return ⟨← opposite outside (← folded s), 0⟩
    | none => nested
  else
    let operates ← taken (do
      let cs ← (StateT.get : Scan (List Char))
      let _ ← operator
      (StateT.set cs : Scan Unit))
    if c = ']' || operates then failure
    else return ⟨← rangeOrMember, 0⟩

def united (items : List (Nested CharSet)) : Nested CharSet :=
  ⟨items.foldl (fun s item => s.union item.value) .empty, depthOf (items.map Nested.depth)⟩

/-- Hyphens that come first stand for themselves, and so does a bracket that comes first. -/
def firstMembers : Reader (List (Nested CharSet)) := do
  let hyphens ← many (do skip '-'; space)
  let bracket ← if hyphens.isEmpty then taken (do skip ']'; space) else pure false
  return hyphens.map (fun _ => ⟨.ofChar '-', 0⟩) ++ (if bracket then [⟨.ofChar ']', 0⟩] else [])

def bracketed (nested : Reader (Nested CharSet)) : Reader (Nested CharSet) := do
  skip '['
  space
  let outside ← taken (do skip '^'; space)
  let firsts ← firstMembers
  let begun := united (firsts ++ (← many (setItem nested)))
  let others ← many (do
    let f ← operator
    return (f, united (← many (setItem nested))))
  space
  skip ']'
  let whole ← others.foldlM (fun left (f, right) => do
    return ⟨f (← folded left.value) (← folded right.value), max left.depth right.depth + 1⟩) begun
  return ⟨← opposite outside (← folded whole.value), whole.depth + 1⟩

def nestedSet : (depth : Nat) → Reader (Nested CharSet)
  | 0 => failure
  | depth + 1 => bracketed (nestedSet depth)

/-! ## Patterns -/

def lineBreak : CharSet := .ofChar '\n'

/-- A character that stands for itself. -/
def literal (c : Char) (byByte : Bool) : Reader Pattern := do
  if !(← modes).unicode && byByte && 0x80 ≤ c.toNat then failure
  else return .one (← folded (.ofChar c))

def point : Reader Pattern := do
  let m ← modes
  if !m.unicode then failure
  else if m.anyChar then return .one CharSet.empty.complement
  else if m.wideLines then return .one (lineBreak.union (.ofChar '\r')).complement
  else return .one lineBreak.complement

def lineStart : Reader Pattern := do
  let m ← modes
  return .border (if !m.lines then .textStart else if m.wideLines then .wideLineStart else .lineStart)

def lineEnd : Reader Pattern := do
  let m ← modes
  return .border (if !m.lines then .textEnd else if m.wideLines then .wideLineEnd else .lineEnd)

/-- A letter that names a mode, with what turning it on or off does. -/
def modeLetters : List (Char × (Bool → Modes → Modes)) :=
  [('i', fun on m => { m with bothCases := on }), ('m', fun on m => { m with lines := on }),
    ('s', fun on m => { m with anyChar := on }), ('R', fun on m => { m with wideLines := on }),
    ('x', fun on m => { m with spaced := on }), ('u', fun on m => { m with unicode := on }),
    -- Which of several matches is found makes no difference here.
    ('U', fun _ m => m)]

/-- Letters of modes, no letter twice, and behind a hyphen those that are turned off. -/
def changes : Reader (List Char × Option (List Char)) := do
  let isLetter (c : Char) : Bool := (modeLetters.lookup c).isSome
  let on ← Scan.span isLetter
  let off ← optional (do skip '-'; Scan.span1 isLetter)
  if (on ++ off.getD []).Nodup then return (on, off) else failure

def changed (m : Modes) (letters : List Char) (on : Bool) : Modes :=
  letters.foldl (fun m c => (modeLetters.lookup c).elim m fun change => change on m) m

/-- The larger ranges beyond ASCII in which there are no letters: signs, marks, pictures. -/
def signs : CharSet :=
  ⟨[(0x80, 0xa9), (0xab, 0xb4), (0xb6, 0xb9), (0xbb, 0xbf), (0xd7, 0xd7), (0xf7, 0xf7),
    (0x300, 0x344), (0x346, 0x362), (0x2000, 0x2070), (0x2072, 0x207e), (0x2080, 0x208f),
    (0x20a0, 0x2101), (0x2190, 0x24b5), (0x24ea, 0x2bff), (0x3000, 0x3004), (0x3008, 0x3020),
    (0xd800, 0xf8ff), (0xfe00, 0xfe6f), (0xff01, 0xff20), (0x1f000, 0x1f12f), (0x1f18a, 0x1fbff),
    (0xe0000, 0x10ffff)]⟩

/-- Letters of any script begin a name. -/
def isNameStart (c : Char) : Bool :=
  c == '_' || c.isAlpha || (0x80 ≤ c.toNat && !signs.contains c && !isBlank c)

def isNamePart (c : Char) : Bool :=
  isNameStart c || c.isDigit || c == '.' || c == '[' || c == ']'

/-- The name of a group, which no other group has. -/
def groupName : Reader Unit := do
  skipWord "?P<" <|> skipWord "?<"
  let first ← Scan.satisfy isNameStart
  let rest ← Scan.span isNamePart
  skip '>'
  let r ← get
  if r.names.contains (first :: rest) then failure
  else modify fun r => { r with names := (first :: rest) :: r.names }

/-- What a part of a pattern is, and whether it can be repeated. -/
structure Part where
  pattern : Pattern
  repeatable : Bool := true

/-- A group, or a change of modes up to the end of the group around it. -/
def parenthesis (inside : Reader (Nested Pattern)) : Reader (Nested Part) := do
  let before ← modes
  let close (p : Nested Pattern) (remembered : Bool) : Reader (Nested Part) := do
    skip ')'
    modify fun r => { r with modes := before }
    return ⟨⟨if remembered then .group p.value else p.value, true⟩, p.depth + 1⟩
  skip '('
  space
  if ← taken groupName then close (← inside) true
  else if ← taken (skip '?') then
    let (on, off) ← changes
    let after := changed (changed before on true) (off.getD []) false
    modify fun r => { r with modes := after }
    if ← taken (skip ':') then close (← inside) false
    else
      skip ')'
      if on = [] ∧ off.isNone then failure else return ⟨⟨.nothing, false⟩, 0⟩
  else close (← inside) true

def part (inside : Reader (Nested Pattern)) : Reader (Nested Part) := do
  space
  let plain (p : Pattern) : Nested Part := ⟨⟨p, true⟩, 0⟩
  match ← next with
  | '(' => parenthesis inside
  | '[' =>
    let s ← nestedSet (depthLimit + 1)
    return ⟨⟨.one s.value, true⟩, s.depth⟩
  | '.' => do skip '.'; return plain (← point)
  | '^' => do skip '^'; return plain (← lineStart)
  | '$' => do skip '$'; return plain (← lineEnd)
  | '\\' =>
    match ← escaped with
    | .char c byByte => return plain (← literal c byByte)
    | .set s => return plain (.one (← folded s))
    | .place p => return plain p
  | c =>
    if ")|?*+\x7b".toList.contains c then failure
    else return plain (← literal (← anyOne) false)

def blanks : Reader Unit := do
  let _ ← Scan.span isBlank

/-- A number of times, which has to fit into 32 bits. Blanks around it do not count. -/
def count : Reader Nat := do
  blanks
  let digits ← many (do
    let c ← Scan.satisfy Char.isDigit
    space
    return c)
  blanks
  let n := digits.foldl (fun acc c => acc * 10 + (c.toNat - 48)) 0
  if digits ≠ [] ∧ n < UInt32.size then return n else failure

/-- Numbers of times between braces. -/
def counts : Reader (Nat × Option Nat) := do
  skip '\x7b'
  space
  let least ← count
  let bounds ←
    if ← taken (do skip ','; space) then
      if (← next) = '\x7d' then pure (least, none)
      else
        let most ← count
        if least ≤ most then pure (least, some most) else failure
    else pure (least, some least)
  skip '\x7d'
  space
  return bounds

/-- How often what is in front is repeated. A question mark behind that makes no difference. -/
def bounds : Reader (Nat × Option Nat) := do
  space
  let b ← (do skip '*'; return (0, none)) <|> (do skip '+'; return (1, none)) <|>
    (do skip '?'; return (0, some 1)) <|> counts
  let _ ← optional (skip '?')
  return b

def repeated (inside : Reader (Nested Pattern)) : Reader (Nested Pattern) := do
  let p ← part inside
  let times ← many bounds
  if times ≠ [] ∧ !p.value.repeatable then failure
  else return ⟨times.foldl (fun p (least, most) => p.repetition least most) p.value.pattern,
    p.depth + times.length⟩

def branch (inside : Reader (Nested Pattern)) : Reader (Nested Pattern) := do
  let parts ← many (repeated inside)
  space
  return ⟨(parts.map Nested.value).foldr Pattern.join .nothing, depthOf (parts.map Nested.depth)⟩

/-- Branches with bars between them. -/
def choice (inside : Reader (Nested Pattern)) : Reader (Nested Pattern) := do
  let first ← branch inside
  let others ← many (do skip '|'; branch inside)
  let rec joined : Pattern → List Pattern → Pattern
    | p, [] => p
    | p, q :: rest => .either p (joined q rest)
  return ⟨joined first.value (others.map Nested.value),
    depthOf (first.depth :: others.map Nested.depth)⟩

/-- A pattern with groups in groups up to a depth. -/
def nested : (depth : Nat) → Reader (Nested Pattern)
  | 0 => failure
  | depth + 1 => choice (nested depth)

end Reader

/-- A whole pattern. It may be neither too deep nor too big, and all that it asks must be known. -/
def ofText? (text : String) : Option Pattern := do
  let p ← Scan.whole? ((Reader.nested (depthLimit + 1)).run' {}) text
  if p.depth ≤ depthLimit && p.value.isKnown && p.value.fits then return p.value else none

end WorkLedger.Text.Pattern
