import WorkLedger.Text.CharSet

/-! Patterns that a part of a text may match: characters, places, and what joins, chooses and repeats
them. A match is followed for all places of the text at once: from the places where it may begin to
the places where it may end. -/

namespace WorkLedger.Text

/-- What may be asked about a place, by the characters before and behind it. -/
inductive Border
  | textStart
  | textEnd
  | lineStart
  | lineEnd
  /-- Lines that end in a carriage return, a line feed or both in this order. -/
  | wideLineStart
  | wideLineEnd
  | wordEdge
  | noWordEdge
  | wordStart
  | wordEnd
  /-- No word goes on before the place. -/
  | noWordBefore
  /-- No word goes on behind the place. -/
  | noWordBehind
  deriving Repr, DecidableEq

inductive Pattern
  /-- Matches the empty text. -/
  | nothing
  | one (set : CharSet)
  | border (kind : Border)
  /-- A question about words of any script, for which there are no tables here. -/
  | unknown
  | join (first second : Pattern)
  | either (first second : Pattern)
  /-- A part between parentheses that is remembered. -/
  | group (inside : Pattern)
  | times (repeated : Pattern) (least : Nat) (most : Option Nat)

/-- The characters of words, of which only ASCII counts. -/
def isWordChar (c : Char) : Bool := c.isAlphanum || c == '_'

def Border.holds (before behind : Option Char) : Border → Bool
  | textStart => before.isNone
  | textEnd => behind.isNone
  | lineStart => before.all (· == '\n')
  | lineEnd => behind.all (· == '\n')
  | wideLineStart => before.all fun c => c == '\n' || (c == '\r' && behind != some '\n')
  | wideLineEnd => behind.all fun c => c == '\r' || (c == '\n' && before != some '\r')
  | wordEdge => before.any isWordChar != behind.any isWordChar
  | noWordEdge => before.any isWordChar == behind.any isWordChar
  | wordStart => !before.any isWordChar && behind.any isWordChar
  | wordEnd => before.any isWordChar && !behind.any isWordChar
  | noWordBefore => !before.any isWordChar
  | noWordBehind => !behind.any isWordChar

namespace Pattern

/-- Places of a text that are marked. There is one more of them than characters. -/
abbrev Places := List Bool

def bordersOf (kind : Border) (text : List Char) : Places :=
  (none :: text.map some).zipWith (fun before behind => kind.holds before behind)
    (text.map some ++ [none])

/-- Takes a step so many times, but no longer when it changes nothing any more. -/
def steps (step : Places → Places) : Nat → Places → Places
  | 0, places => places
  | n + 1, places =>
    let next := step places
    if next == places then places else steps step n next

/-- Takes a step up to so many times, each from the places that the last one has found, and keeps all
places that were `seen`. -/
def spread (step : Places → Places) : Nat → (found seen : Places) → Places
  | 0, _, seen => seen
  | n + 1, found, seen =>
    if found.any id then
      let next := (step found).zipWith (fun now before => now && !before) seen
      spread step n next (seen.zipWith (· || ·) next)
    else seen

/-- The places where matches may end that begin at marked places. Among more steps than the text has
characters one stays where it is, so more steps than these lead nowhere else. -/
def after (text : List Char) : Pattern → Places → Places
  | nothing, places => places
  | one set, places => false :: places.zipWith (fun marked c => marked && set.contains c) text
  | border kind, places => places.zipWith (· && ·) (bordersOf kind text)
  | unknown, places => places.map fun _ => false
  | join first second, places => after text second (after text first places)
  | either first second, places =>
    (after text first places).zipWith (· || ·) (after text second places)
  | group inside, places => after text inside places
  | times repeated least most, places =>
    let limit := text.length + 1
    let begun := steps (after text repeated) (min least limit) places
    let more := most.elim limit fun most => min (most - least) limit
    spread (after text repeated) more begun begun

/-- Whether a part of the text matches. -/
def occursIn (p : Pattern) (text : String) : Bool :=
  (p.after text.toList (true :: text.toList.map fun _ => true)).any id

/-- Whether all that it asks can be answered here. -/
def isKnown : Pattern → Bool
  | unknown => false
  | join first second => isKnown first && isKnown second
  | either first second => isKnown first && isKnown second
  | group inside => isKnown inside
  | times repeated _ _ => isKnown repeated
  | _ => true

/-- Whether all its matches are empty. -/
def isEmptyOnly : Pattern → Bool
  | nothing | border _ | unknown => true
  | one _ => false
  | join first second => isEmptyOnly first && isEmptyOnly second
  | either first second => isEmptyOnly first && isEmptyOnly second
  | group inside => isEmptyOnly inside
  | times repeated _ _ => isEmptyOnly repeated

/-- Whether it may match without taking a character. -/
def mayBeEmpty : Pattern → Bool
  | nothing | border _ | unknown => true
  | one _ => false
  | join first second => mayBeEmpty first && mayBeEmpty second
  | either first second => mayBeEmpty first || mayBeEmpty second
  | group inside => mayBeEmpty inside
  | times repeated least _ => least == 0 || mayBeEmpty repeated

/-- A repetition in its simplest form: none at all asks nothing, and what takes no character is not
repeated more than once. -/
def repetition (p : Pattern) (least : Nat) (most : Option Nat) : Pattern :=
  let (least, most) :=
    if p.isEmptyOnly then (min least 1, some (most.elim 1 fun most => min most 1))
    else (least, most)
  if least = 0 ∧ most = some 0 then nothing
  else if least = 1 ∧ most = some 1 then p
  else times p least most

end Pattern

end WorkLedger.Text
