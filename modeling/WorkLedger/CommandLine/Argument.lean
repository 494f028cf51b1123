/-! The kinds of arguments. A single hyphen and the empty text are words like any other. -/

namespace WorkLedger.CommandLine

inductive Argument
  /-- Two hyphens alone: what follows are words only. -/
  | separator
  /-- Two hyphens and a name, perhaps with a value behind an equals sign. -/
  | long (name : String) (value : Option String)
  /-- A hyphen and letters. -/
  | short (letters : List Char)
  | word (text : String)
  deriving Repr, DecidableEq

/-- What is before the first equals sign, and what is behind it if there is one. -/
def cutAtEquals (cs : List Char) : String × Option String :=
  let name := cs.takeWhile (· ≠ '=')
  let value := if name.length < cs.length then some (cs.drop (name.length + 1)) else none
  (.ofList name, value.map .ofList)

def Argument.ofText (text : String) : Argument :=
  match text.toList with
  | ['-', '-'] => .separator
  | '-' :: '-' :: rest =>
    let (name, value) := cutAtEquals rest
    .long name value
  | '-' :: c :: rest => .short (c :: rest)
  | _ => .word text

end WorkLedger.CommandLine
