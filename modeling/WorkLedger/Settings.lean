import WorkLedger.Bytes
import WorkLedger.Error
import WorkLedger.Json.Fields
import WorkLedger.Json.Reader
import WorkLedger.Text.Blank
import WorkLedger.Text.Unsigned
import WorkLedger.Toml.Reader

/-! Settings of a run. A file gives some of them, in JSON or TOML; the environment overrides three
of them; what nobody gives has a default. -/

namespace WorkLedger

structure Settings where
  miners : UInt32 := 4
  clients : UInt32 := 4
  /-- Mining stops at this height. -/
  chainSize : UInt32 := 10
  /-- Time before the first payment of a client (ms). -/
  initialDelay : UInt64 := 100
  /-- Time between payments of clients (ms). -/
  delay : UInt64 := 500
  /-- Whether a stored chain is verified in full. -/
  strictLoading : Bool := false
  deriving Repr, DecidableEq

namespace Settings

def defaults : Settings := {}

/-- A run needs a miner and a height to reach. -/
def validate (s : Settings) : Except Error Unit :=
  if s.miners = 0 then .error (.config "numberOfMiners must be at least 1")
  else if s.chainSize = 0 then .error (.config "assumedBlockchainSize must be at least 1")
  else .ok ()

/-! ## Files -/

inductive Format
  | json
  | toml
  deriving Repr, DecidableEq

/-- What is behind the last point of a file name, if something is before it. -/
def extension? (path : String) : Option String := do
  let parts := (path.splitOn "/").filter fun part => part ≠ "" && part ≠ "."
  let name ← parts.getLast?
  if name = ".." then none
  else
    let pieces := name.splitOn "."
    if pieces.length < 2 ∨ (pieces.length = 2 ∧ pieces.head? = some "") then none
    else pieces.getLast?

def Format.ofPath (path : String) : Format :=
  if (extension? path).any (·.toLower == "toml") then .toml else .json

/-- The names of the settings in a file, in their order. -/
def names : List String :=
  ["numberOfMiners", "numberOfClients", "assumedBlockchainSize", "initialClientsDelay",
    "clientsTransactionsDelay", "useFullTransactionsCheckOnLoading"]

/-- Settings from values by name, each with its own kind of reader. -/
def ofLookup? (natural? : (name : String) → (bound default : Nat) → Option Nat)
    (boolean? : (name : String) → (default : Bool) → Option Bool) : Option Settings := do
  let word (name : String) (default : UInt32) :=
    (natural? name UInt32.size default.toNat).map UInt32.ofNat
  let long (name : String) (default : UInt64) :=
    (natural? name UInt64.size default.toNat).map UInt64.ofNat
  let miners ← word "numberOfMiners" defaults.miners
  let clients ← word "numberOfClients" defaults.clients
  let chainSize ← word "assumedBlockchainSize" defaults.chainSize
  let initialDelay ← long "initialClientsDelay" defaults.initialDelay
  let delay ← long "clientsTransactionsDelay" defaults.delay
  let strictLoading ← boolean? "useFullTransactionsCheckOnLoading" defaults.strictLoading
  return ⟨miners, clients, chainSize, initialDelay, delay, strictLoading⟩

def ofJson? (text : String) : Option Settings := do
  let fields ← (← Json.Value.ofText? text).fields? names
  ofLookup? (fun name bound => fields.withDefault name (Json.Value.natural? bound))
    (fun name => fields.withDefault name Json.Value.boolean?)

def tomlNatural? (bound : Nat) : Toml.Value → Option Nat
  | .integer n => if 0 ≤ n ∧ n < bound then some n.toNat else none
  | _ => none

def tomlBoolean? : Toml.Value → Option Bool
  | .boolean b => some b
  | _ => none

def tomlWithDefault {α : Type} (entries : Toml.Entries) (name : String)
    (read? : Toml.Value → Option α) (default : α) : Option α :=
  match entries.lookup name with
  | none => some default
  | some v => read? v

def ofToml? (text : String) : Option Settings := do
  let entries ← Toml.Document.ofText? text
  ofLookup? (fun name bound => tomlWithDefault entries name (tomlNatural? bound))
    (fun name => tomlWithDefault entries name tomlBoolean?)

def parse (format : Format) (text : String) : Except Error Settings :=
  match format with
  | .json => (ofJson? text).elim (.error (.config "Invalid configuration")) .ok
  | .toml => (ofToml? text).elim (.error (.config "Invalid TOML")) .ok

/-- The settings of a file with this content. Where there is no file, the defaults hold. -/
def load (path : String) (content : Option Bytes) : Except Error Settings :=
  match content with
  | none => .ok defaults
  | some bytes =>
    match Bytes.toText? bytes with
    | none => .error (.io "stream did not contain valid UTF-8")
    | some text => parse (.ofPath path) text

/-! ## The environment -/

/-- The names that count. -/
def environmentNames : List String := ["VC_MINERS", "VC_CLIENTS", "VC_CHAIN_SIZE"]

/-- The number that a variable gives. Blanks around it do not count. -/
def environmentNumber (environment : String → Option String) (name : String) :
    Except Error (Option UInt32) :=
  match environment name with
  | none => .ok none
  | some value =>
    match Text.Unsigned.read UInt32.size (Text.trim value) with
    | .ok n => .ok (some (UInt32.ofNat n))
    | .error fault =>
      .error (.config (name ++ "=" ++ value ++ " is not a number: " ++ fault.message))

/-- The settings with what the environment gives in place of what they were. -/
def override (s : Settings) (environment : String → Option String) : Except Error Settings := do
  let miners ← environmentNumber environment "VC_MINERS"
  let clients ← environmentNumber environment "VC_CLIENTS"
  let chainSize ← environmentNumber environment "VC_CHAIN_SIZE"
  return { s with
    miners := miners.getD s.miners
    clients := clients.getD s.clients
    chainSize := chainSize.getD s.chainSize }

end Settings

end WorkLedger
