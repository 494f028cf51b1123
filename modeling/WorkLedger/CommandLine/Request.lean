import WorkLedger.CommandLine.Reading

/-! From arguments to a request: flags, the name of a command, and what belongs to the command. -/

namespace WorkLedger.CommandLine

/-- Commands by name only. -/
inductive Verb
  | simulate
  | printChain
  | exportChain
  | balance
  | verify
  | createWallet
  | listAddresses
  deriving Repr, DecidableEq

namespace Verb

def ofName? : String → Option Verb
  | "simulate" => some simulate
  | "printchain" => some printChain
  | "export" => some exportChain
  | "balance" => some balance
  | "verify" => some verify
  | "createwallet" => some createWallet
  | "listaddresses" => some listAddresses
  | _ => none

/-- The options of a command. -/
def parameters : Verb → List Parameter
  | simulate => [.config, .folder, .miners, .chainSize]
  | exportChain => [.folder, .output]
  | _ => [.folder]

/-- What the word of a command is called, if it needs one. -/
def word? : Verb → Option String
  | balance => some "address"
  | createWallet => some "name"
  | _ => none

def command (verb : Verb) (word : String) (c : Choices) : Command :=
  match verb with
  | simulate => .simulate c.config c.folder c.miners c.chainSize
  | printChain => .printChain c.folder
  | exportChain => .exportChain c.folder c.output
  | balance => .balance word c.folder
  | verify => .verify c.folder
  | createWallet => .createWallet word c.folder
  | listAddresses => .listAddresses c.folder

/-- The request that a command and its arguments make. -/
def request (verb : Verb) (verbose : Bool) (arguments : List String) : Except Misuse Request := do
  let r ← Reading.read verb.parameters verb.word?.isSome false {} arguments
  match verb.word?, r.word with
  | some name, none => throw (.missingArgument name)
  | _, word => return ⟨verbose || r.verbose, verb.command (word.getD "") r.choices⟩

end Verb

/-- The name of the command that explains commands. -/
def helpName : String := "help"

/-- Explains one command, if it is one. None has commands of its own. -/
def explain : List String → Misuse
  | [] => .helpRequested
  | name :: rest =>
    if name ≠ helpName ∧ (Verb.ofName? name).isNone then .unknownCommand name
    else match rest with
      | [] => .helpRequested
      | other :: _ => .unknownCommand other

/-- A word that stands where the name of a command has to stand, and is none. -/
def stray (trailing : Bool) (text : String) : Misuse :=
  if trailing ∧ (text = helpName ∨ (Verb.ofName? text).isSome) then .unknownArgument text
  else .unknownCommand text

/-- No command at all. -/
def absent (r : Reading) : Misuse := if r.verbose then .missingCommand else .nothingGiven

/-- What is before the command: flags only. -/
def requestFrom (r : Reading) : List String → Except Misuse Request
  | [] => .error (absent r)
  | text :: rest =>
    if text = helpName then .error (explain rest)
    else match Verb.ofName? text with
      | some verb => verb.request r.verbose rest
      | none =>
        match Argument.ofText text with
        | .separator =>
          match rest with
          | [] => .error (absent r)
          | next :: _ => .error (stray true next)
        | .long name value => do
          let r ← r.long [] name value
          requestFrom r rest
        | .short letters => do
          let r ← r.short letters
          requestFrom r rest
        | .word text => .error (stray false text)

def Request.ofArguments (arguments : List String) : Except Misuse Request :=
  requestFrom {} arguments

end WorkLedger.CommandLine
