import WorkLedger.CommandLine.Argument
import WorkLedger.CommandLine.Command

/-! Reading arguments from left to right. An option waits for its value, and the value is looked at
only when the next known argument comes, or when there are no more. So of two faults the later one
can be the one that is told. -/

namespace WorkLedger.CommandLine

/-- An option that takes a value. -/
inductive Parameter
  | config
  | folder
  | miners
  | chainSize
  | output
  deriving Repr, DecidableEq

def Parameter.name : Parameter → String
  | config => "config"
  | folder => "data-dir"
  | miners => "miners"
  | chainSize => "chain-size"
  | output => "output"

/-- An option that takes none. -/
inductive Flag
  | verbose
  | help
  deriving Repr, DecidableEq

def Flag.ofName? : String → Option Flag
  | "verbose" => some .verbose
  | "help" => some .help
  | _ => none

def Flag.ofLetter? : Char → Option Flag
  | 'v' => some .verbose
  | 'h' => some .help
  | _ => none

/-- Values that were looked at. -/
structure Choices where
  config : Option String := none
  folder : Option String := none
  miners : Option UInt32 := none
  chainSize : Option UInt32 := none
  output : Option String := none

namespace Choices

def checkPath (name : String) (old : Option String) (text : String) : Except Misuse String :=
  if old.isSome then .error (.repeatedArgument name)
  else if text = "" then .error (.missingValue name)
  else .ok text

/-- A number is decimal digits, perhaps behind a sign. -/
def number? (text : String) : Option UInt32 := do
  let (negative, digits) := match text.toList with
    | '-' :: rest => (true, rest)
    | '+' :: rest => (false, rest)
    | digits => (false, digits)
  if digits.isEmpty || !digits.all Char.isDigit then none
  else
    let n := Nat.ofDigitChars 10 digits 0
    if n = 0 ∨ (n < UInt32.size ∧ !negative) then some (UInt32.ofNat n) else none

def checkNumber (name : String) (old : Option UInt32) (text : String) : Except Misuse UInt32 :=
  if old.isSome then .error (.repeatedArgument name)
  else (number? text).elim (.error (.badNumber name text)) .ok

/-- Takes the value of an option, which has to be new and of the right kind. -/
def set (c : Choices) (p : Parameter) (text : String) : Except Misuse Choices :=
  match p with
  | .config => (checkPath p.name c.config text).map fun v => { c with config := some v }
  | .folder => (checkPath p.name c.folder text).map fun v => { c with folder := some v }
  | .miners => (checkNumber p.name c.miners text).map fun v => { c with miners := some v }
  | .chainSize => (checkNumber p.name c.chainSize text).map fun v => { c with chainSize := some v }
  | .output => (checkPath p.name c.output text).map fun v => { c with output := some v }

end Choices

structure Reading where
  verbose : Bool := false
  choices : Choices := {}
  /-- The word that some commands need. -/
  word : Option String := none
  /-- The last option, with its value once that is there. -/
  pending : Option (Parameter × Option String) := none

namespace Reading

/-- Looks at the last option. -/
def settle (r : Reading) : Except Misuse Reading :=
  match r.pending with
  | none => .ok r
  | some (p, none) => .error (.missingValue p.name)
  | some (p, some text) =>
    (r.choices.set p text).map fun choices => { r with choices := choices, pending := none }

def flag (r : Reading) (f : Flag) : Except Misuse Reading := do
  let r ← r.settle
  match f with
  | .help => throw .helpRequested
  | .verbose =>
    if r.verbose then throw (.repeatedArgument "verbose") else return { r with verbose := true }

/-- Two hyphens and a name, where these options are known. -/
def long (known : List Parameter) (r : Reading) (name : String) (value : Option String) :
    Except Misuse Reading :=
  match Flag.ofName? name, value with
  | some f, none => r.flag f
  | some _, some _ => .error (.unexpectedValue name)
  | none, _ =>
    match known.find? fun p => p.name == name with
    | none => .error (.unknownArgument ("--" ++ name))
    | some p => do
      let r ← r.settle
      match value with
      | none => return { r with pending := some (p, none) }
      | some text => settle { r with pending := some (p, some text) }

def short (r : Reading) (letters : List Char) : Except Misuse Reading :=
  letters.foldlM (fun r c =>
    match Flag.ofLetter? c with
    | some f => r.flag f
    | none => .error (.unknownArgument ("-" ++ c.toString))) r

/-- A word is the value of an option that waits for one. Any other is the word of the command. -/
def plain (takesWord trailing : Bool) (r : Reading) (text : String) : Except Misuse Reading :=
  match r.pending, trailing with
  | some (p, none), false => .ok { r with pending := some (p, some text) }
  | _, _ =>
    if takesWord && r.word.isNone then r.settle.map fun r => { r with word := some text }
    else .error (.unknownArgument text)

/-- Reads all arguments of a command. -/
def read (known : List Parameter) (takesWord : Bool) :
    (trailing : Bool) → Reading → List String → Except Misuse Reading
  | _, r, [] => r.settle
  | true, r, text :: rest => do
    let r ← r.plain takesWord true text
    read known takesWord true r rest
  | false, r, text :: rest =>
    match Argument.ofText text with
    | .separator => read known takesWord true r rest
    | .long name value => do
      let r ← r.long known name value
      read known takesWord false r rest
    | .short letters => do
      let r ← r.short letters
      read known takesWord false r rest
    | .word text => do
      let r ← r.plain takesWord false text
      read known takesWord false r rest

end Reading

end WorkLedger.CommandLine
