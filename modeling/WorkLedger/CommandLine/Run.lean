import WorkLedger.CommandLine.Log
import WorkLedger.CommandLine.Machine
import WorkLedger.CommandLine.Request
import WorkLedger.Simulation.Simulator

/-! Commands at work. A command prints what it found, or it fails and prints nothing; why it failed
is told beside the output. -/

namespace WorkLedger.CommandLine

/-- Why a command failed. -/
inductive Failure
  | ledger (error : Error)
  /-- An output file that could not be written, in the words of the machine. -/
  | output (reason : String)
  deriving Repr, DecidableEq

def Failure.message : Failure → String
  | ledger error => error.message
  | output reason => reason

inductive Outcome
  | done
  | failed (failure : Failure)
  | misused (misuse : Misuse)
  deriving Repr, DecidableEq

/-- The number that the program ends with. -/
def Outcome.code : Outcome → UInt32
  | done => 0
  | failed _ => 1
  | misused .helpRequested => 0
  | misused _ => 2

/-- The settings of a run where no file is named. -/
def defaultConfig : String := "config/config.json"

/-- The folder of the store where no folder is named. -/
def defaultFolder : String := "serialization_output"

namespace Command

/-- What arguments say counts more than the environment, and that more than the file. -/
def settings (path : String) (content : Except String (Option Bytes))
    (environment : String → Option String) (miners chainSize : Option UInt32) :
    Except Error Settings := do
  let content ← content.mapError .io
  let s ← Settings.load path content
  let s ← s.override environment
  return { s with miners := miners.getD s.miners, chainSize := chainSize.getD s.chainSize }

def chainText : Option (List Block) → String
  | none => "No chain stored yet\n"
  | some blocks => String.join (blocks.map fun b => b.text ++ "\n\n")

def balanceText (address : String) (s : Store) : Except Error String := do
  let blocks ← s.loadChain
  let pool ← s.loadPool
  let balance ← coinsOf address (blocks.getD []) pool
  return "Balance of " ++ address ++ ": " ++ toString balance ++ "\n"

def verdictText (s : Store) : Except Error String := do
  match ← s.loadChain with
  | none => throw (.database "No chain stored yet")
  | some blocks =>
    if verifyChain blocks Difficulty.initial.zeros then
      return "Chain of height " ++ toString (blocks.length - 1) ++ " is valid\n"
    else throw (.invalidBlock "Stored chain failed verification")

/-- The address of the new wallet, and the store with the wallet in it. -/
def addWallet (name : String) (s : Store) (m : Moment) : Except Error (String × Store) := do
  let book ← s.loadWallets
  let (address, book) ← book.create name (m.draw 0)
  return (address, s.saveWallets book)

def addressesText (s : Store) : Except Error String := do
  let book ← s.loadWallets
  return String.join (book.addresses.map fun (name, address) => name ++ ": " ++ address ++ "\n")

variable {μ : Type → Type} [Monad μ]

abbrev Action (μ : Type → Type) := ExceptT Failure μ

/-- A result of the ledger, as one of a command. -/
def attempt {α : Type} (result : Except Error α) : Action μ α :=
  ExceptT.mk (pure (result.mapError .ledger))

def openStore (machine : Machine μ) (folder : Option String) : Action μ Store := do
  attempt (← machine.openStore (folder.getD defaultFolder))

def keepStore (machine : Machine μ) (folder : Option String) (s : Store) : Action μ Unit := do
  attempt (← machine.keepStore (folder.getD defaultFolder) s)

def performRun (machine : Machine μ) (config folder : Option String)
    (miners chainSize : Option UInt32) : Action μ Unit := do
  let path := config.getD defaultConfig
  let content ← machine.readFile path
  let s ← attempt (settings path content (← machine.environment) miners chainSize)
  let store ← openStore machine folder
  let m ← machine.moment
  let ending ← ((Simulator.ofLedger s .fresh).run machine.work store m : μ Simulator.Ending)
  keepStore machine folder ending.store
  let report ← attempt ending.result
  machine.print (report.text ++ "\n")

def performExport (machine : Machine μ) (folder output : Option String) : Action μ Unit := do
  let store ← openStore machine folder
  let blocks := (← attempt store.loadChain).getD []
  let text := Export.write blocks
  match output with
  | none => machine.print (text ++ "\n")
  | some path =>
    match ← machine.writeFile path text with
    | .error reason => throw (.output reason)
    | .ok () =>
      machine.print ("Exported " ++ toString blocks.length ++ " blocks to " ++ path ++ "\n")

/-- Does what a command asks for. -/
def perform (machine : Machine μ) : Command → Action μ Unit
  | .simulate config folder miners chainSize => performRun machine config folder miners chainSize
  | .exportChain folder output => performExport machine folder output
  | .printChain folder => do
    let store ← openStore machine folder
    machine.print (chainText (← attempt store.loadChain))
  | .balance address folder => do
    if !Address.isValid address then throw (.ledger (.invalidAddress address))
    let store ← openStore machine folder
    machine.print (← attempt (balanceText address store))
  | .verify folder => do
    let store ← openStore machine folder
    machine.print (← attempt (verdictText store))
  | .createWallet name folder => do
    let store ← openStore machine folder
    let (address, store) ← attempt (addWallet name store (← machine.moment))
    keepStore machine folder store
    machine.print ("Your new address: " ++ address ++ "\n")
  | .listAddresses folder => do
    let store ← openStore machine folder
    machine.print (← attempt (addressesText store))

end Command

/-- Tells a message that the filter lets pass. -/
def tell {μ : Type → Type} [Monad μ] (machine : Machine μ) (filter : Log.Filter)
    (level : Log.Level) (message : String) : μ Unit :=
  if filter.passes level message then machine.tell (Log.line level message) else pure ()

/-- Runs the program on its arguments. -/
def run {μ : Type → Type} [Monad μ] (machine : Machine μ) (arguments : List String) :
    μ Outcome := do
  match Request.ofArguments arguments with
  | .error misuse => return .misused misuse
  | .ok request =>
    let filter := Log.Filter.ofEnvironment (← machine.environment) request.verbose
    match ← (request.command.perform machine).run with
    | .ok () =>
      tell machine filter .debug "Done"
      return .done
    | .error failure =>
      tell machine filter .error ("Error: " ++ failure.message)
      return .failed failure

end WorkLedger.CommandLine
