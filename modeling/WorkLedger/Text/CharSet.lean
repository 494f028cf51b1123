/-! Sets of characters, as ranges of their numbers in ascending order. Ranges of one set do not touch
each other, so a set has one form only. -/

namespace WorkLedger.Text

structure CharSet where
  /-- The first and the last number of each range. -/
  ranges : List (Nat × Nat)
  deriving Repr, DecidableEq

namespace CharSet

/-- The greatest number of a character. -/
def greatest : Nat := 0x10ffff

def empty : CharSet := ⟨[]⟩

def isEmpty (s : CharSet) : Bool := s.ranges.isEmpty

def contains (s : CharSet) (c : Char) : Bool :=
  s.ranges.any fun (first, last) => first ≤ c.toNat && c.toNat ≤ last

/-- Puts a range among others, and joins it with those that it touches. -/
def insertRange : Nat × Nat → List (Nat × Nat) → List (Nat × Nat)
  | range, [] => [range]
  | (first, last), (a, b) :: rest =>
    if last + 1 < a then (first, last) :: (a, b) :: rest
    else if b + 1 < first then (a, b) :: insertRange (first, last) rest
    else insertRange (min first a, max last b) rest

def ofRanges (ranges : List (Nat × Nat)) : CharSet := ⟨ranges.foldr insertRange []⟩

def ofChar (c : Char) : CharSet := ⟨[(c.toNat, c.toNat)]⟩

/-- What lies between ascending ranges, from a number on. -/
def gaps (start : Nat) : List (Nat × Nat) → List (Nat × Nat)
  | [] => if start ≤ greatest then [(start, greatest)] else []
  | (first, last) :: rest =>
    if start < first then (start, first - 1) :: gaps (last + 1) rest else gaps (last + 1) rest

def complement (s : CharSet) : CharSet := ⟨gaps 0 s.ranges⟩

def union (s t : CharSet) : CharSet := ⟨s.ranges.foldr insertRange t.ranges⟩

def inter (s t : CharSet) : CharSet := (s.complement.union t.complement).complement

def diff (s t : CharSet) : CharSet := s.inter t.complement

/-- What is in just one of the two. -/
def symmDiff (s t : CharSet) : CharSet := (s.union t).diff (s.inter t)

/-- Whether all its characters are ASCII. -/
def isAscii (s : CharSet) : Bool := s.ranges.all fun range => range.2 < 0x80

def lowerLetters : CharSet := ⟨[(0x61, 0x7a)]⟩

def upperLetters : CharSet := ⟨[(0x41, 0x5a)]⟩

/-- The ranges moved by a distance between small and capital letters. -/
def shifted (s : CharSet) (move : Nat → Nat) : CharSet :=
  ⟨s.ranges.map fun (first, last) => (move first, move last)⟩

/-- The set with the other case of all its ASCII letters. -/
def withBothCases (s : CharSet) : CharSet :=
  (s.union ((s.inter lowerLetters).shifted (· - 0x20))).union
    ((s.inter upperLetters).shifted (· + 0x20))

end CharSet

end WorkLedger.Text
