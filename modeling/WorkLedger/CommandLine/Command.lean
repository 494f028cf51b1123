/-! What the program can be asked to do. A path or number that is none was not given. -/

namespace WorkLedger.CommandLine

inductive Command
  /-- Run miners and clients up to the target height. -/
  | simulate (config folder : Option String) (miners chainSize : Option UInt32)
  /-- Print all stored blocks. -/
  | printChain (folder : Option String)
  /-- Write the stored chain for other programs, to a file or to the output. -/
  | exportChain (folder output : Option String)
  /-- Print what an address has on the stored chain and in the stored pool. -/
  | balance (address : String) (folder : Option String)
  /-- Verify the stored chain in full. -/
  | verify (folder : Option String)
  /-- Store a new wallet under a name. -/
  | createWallet (name : String) (folder : Option String)
  /-- Print the stored names and addresses. -/
  | listAddresses (folder : Option String)
  deriving Repr, DecidableEq

/-- A command, and whether to tell more on the way. -/
structure Request where
  verbose : Bool
  command : Command
  deriving Repr, DecidableEq

/-- Why arguments do not make a request. -/
inductive Misuse
  /-- A request for help is answered like a misuse, but it ends well. -/
  | helpRequested
  | nothingGiven
  | missingCommand
  | unknownCommand (name : String)
  | unknownArgument (text : String)
  | repeatedArgument (name : String)
  | missingValue (name : String)
  | unexpectedValue (name : String)
  | badNumber (name text : String)
  | missingArgument (name : String)
  deriving Repr, DecidableEq

def Misuse.message : Misuse → String
  | helpRequested =>
    "Commands: simulate, printchain, export, balance, verify, createwallet, listaddresses"
  | nothingGiven => "no command was given; try --help"
  | missingCommand => "a command is missing; try --help"
  | unknownCommand name => "there is no command '" ++ name ++ "'"
  | unknownArgument text => "unexpected argument '" ++ text ++ "'"
  | repeatedArgument name => "'" ++ name ++ "' was given more than once"
  | missingValue name => "'" ++ name ++ "' needs a value"
  | unexpectedValue name => "'" ++ name ++ "' takes no value"
  | badNumber name text => "'" ++ text ++ "' is no number for '" ++ name ++ "'"
  | missingArgument name => "'" ++ name ++ "' is missing"

end WorkLedger.CommandLine
