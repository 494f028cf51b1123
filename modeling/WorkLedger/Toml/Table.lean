/-! TOML values, and the tables that the lines of a document build. A table may be opened once by a
header, also after it was passed on the way to a deeper one; dotted keys extend only tables that no
header or brace has opened. -/

namespace WorkLedger.Toml

/-- How a table came to be. -/
inductive Origin
  /-- Opened by a header, or the document itself. -/
  | header
  /-- Named on the way to a header behind it. -/
  | passed
  /-- Named on the way to the last part of a dotted key. -/
  | dotted
  /-- Written between braces, where nothing can be added later. -/
  | braces
  deriving Repr, DecidableEq

inductive Value
  | integer (n : Int)
  | boolean (b : Bool)
  | text (content : String)
  /-- A number with a fraction or an exponent, as it is written. -/
  | float (written : String)
  /-- A date, a time or both, as it is written. -/
  | moment (written : String)
  | array (items : List Value)
  | table (origin : Origin) (entries : List (String × Value))
  /-- One table for each header in double brackets. -/
  | tables (all : List (List (String × Value)))

/-- The entries of a table in the order they came. -/
abbrev Entries := List (String × Value)

namespace Entries

def replace (entries : Entries) (key : String) (value : Value) : Entries :=
  entries.map fun e => if e.1 = key then (key, value) else e

/-- Adds an entry behind the others, if its key is free. -/
def add? (entries : Entries) (key : String) (value : Value) : Option Entries :=
  if (entries.lookup key).isSome then none else some (entries ++ [(key, value)])

/-- Changes the table at the end of a path. Tables on the way that are missing are made with origin
`made`, those that are there must pass `enter`, and of a list of tables the last one is taken. -/
def changeAt? (enter : Origin → Bool) (made : Origin) (change : Origin → Entries → Option Entries) :
    List String → Origin → Entries → Option Entries
  | [], origin, entries => change origin entries
  | key :: path, _, entries =>
    match entries.lookup key with
    | none => do
      let inner ← changeAt? enter made change path made []
      return entries ++ [(key, .table made inner)]
    | some (.table origin inner) =>
      if enter origin then do
        let inner ← changeAt? enter made change path origin inner
        return entries.replace key (.table origin inner)
      else none
    | some (.tables all) =>
      match all.getLast? with
      | none => none
      | some inner => do
        let inner ← changeAt? enter made change path .header inner
        return entries.replace key (.tables (all.dropLast ++ [inner]))
    | some _ => none

/-- Adds the value of a dotted key, relative to a table. A path that ends in a table of another kind
is refused. -/
def addDotted? (path : List String) (key : String) (value : Value) :
    Origin → Entries → Option Entries :=
  changeAt? (fun origin => origin == .passed || origin == .dotted) .dotted
    (fun origin entries =>
      if (origin == .dotted) == path.isEmpty then none else entries.add? key value)
    path

def enterHeader (origin : Origin) : Bool := origin != .braces

/-- Opens the table of a header. -/
def openTable? (path : List String) (key : String) (entries : Entries) : Option Entries :=
  changeAt? enterHeader .passed
    (fun _ entries =>
      match entries.lookup key with
      | none => some (entries ++ [(key, .table .header [])])
      | some (.table .passed inner) => some (entries.replace key (.table .header inner))
      | some _ => none)
    path .header entries

/-- Opens one more table for a header in double brackets. -/
def openNext? (path : List String) (key : String) (entries : Entries) : Option Entries :=
  changeAt? enterHeader .passed
    (fun _ entries =>
      match entries.lookup key with
      | none => some (entries ++ [(key, .tables [[]])])
      | some (.tables all) => some (entries.replace key (.tables (all ++ [[]])))
      | some _ => none)
    path .header entries

end Entries

/-- One line of a document, or several that belong together. A path comes before its last part. -/
inductive Statement
  | header (path : List String) (key : String)
  | nextHeader (path : List String) (key : String)
  | entry (path : List String) (key : String) (value : Value)

/-- A document read up to some line. -/
structure Document where
  entries : Entries
  /-- The table that the lines below belong to. -/
  current : List String

namespace Document

def empty : Document := ⟨[], []⟩

def take? (d : Document) : Statement → Option Document
  | .header path key => do return ⟨← d.entries.openTable? path key, path ++ [key]⟩
  | .nextHeader path key => do return ⟨← d.entries.openNext? path key, path ++ [key]⟩
  | .entry path key value => do
    let entries ←
      d.entries.changeAt? Entries.enterHeader .passed (Entries.addDotted? path key value)
      d.current .header
    return { d with entries := entries }

/-- The entries of a document with these statements. -/
def build? (statements : List Statement) : Option Entries :=
  (statements.foldlM take? empty).map (·.entries)

end Document

end WorkLedger.Toml
