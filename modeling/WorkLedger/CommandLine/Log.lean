import WorkLedger.Text.Pattern.Reader

/-! Messages beside the output. Each has a level, and a filter decides which are told. A filter is
written as directives with commas between them, behind which a slash and a pattern may stand. -/

namespace WorkLedger.Log

/-- How much a message matters, the most urgent first. -/
inductive Level
  | error
  | warn
  | info
  | debug
  | trace
  deriving Repr, DecidableEq

namespace Level

def all : List Level := [.error, .warn, .info, .debug, .trace]

def name : Level → String
  | error => "ERROR"
  | warn => "WARN"
  | info => "INFO"
  | debug => "DEBUG"
  | trace => "TRACE"

def rank : Level → Nat
  | error => 1
  | warn => 2
  | info => 3
  | debug => 4
  | trace => 5

end Level

/-- The last level that is told, or none if nothing is. -/
abbrev Limit := Option Level

def Limit.allows (limit : Limit) (level : Level) : Bool := limit.any fun l => level.rank ≤ l.rank

/-- A level by its name in any case, or `off`. -/
def Limit.ofText? (text : String) : Option Limit :=
  let name := text.toUpper
  if name = "OFF" then some none
  else (Level.all.find? fun level => level.name = name).map some

/-- The name that messages of this program come under. -/
def source : String := "vc_ledger"

structure Directive where
  /-- How the names begin that this is about. It is about all names if there is none. -/
  source : Option String
  limit : Limit

namespace Directive

def covers (d : Directive) (name : String) : Bool := d.source.all fun start => name.startsWith start

/-- Of two directives about a name, the one that says more of it counts. -/
def weight (d : Directive) : Nat := d.source.elim 0 fun start => start.utf8ByteSize + 1

/-- A limit for all names, a name that everything is told of, or both with `=` between them. -/
def ofText? (text : String) : Option Directive :=
  match text.splitOn "=" with
  | [word] => some ((Limit.ofText? word).elim ⟨some word, some .trace⟩ fun limit => ⟨none, limit⟩)
  | [name, limit] =>
    let limit := Text.trim limit
    if limit = "" then some ⟨some name, some .trace⟩
    else (Limit.ofText? limit).map fun limit => ⟨some name, limit⟩
  | _ => none

end Directive

structure Filter where
  /-- In the order in which they were given. -/
  directives : List Directive
  /-- What a message has to hold. -/
  pattern : Option Text.Pattern

namespace Filter

/-- Of directives that weigh the same, the last counts. -/
def limit (f : Filter) (name : String) : Limit :=
  let heavier (best : Option Directive) (d : Directive) : Option Directive :=
    if best.all fun b => b.weight ≤ d.weight then some d else best
  ((f.directives.filter fun d => d.covers name).foldl heavier none).bind Directive.limit

def passes (f : Filter) (level : Level) (message : String) : Bool :=
  (f.limit source).allows level && f.pattern.all fun p => p.occursIn message

def directivesOfText (text : String) : List Directive :=
  (((text.splitOn ",").map Text.trim).filter (· ≠ "")).filterMap Directive.ofText?

/-- What is written comes after a limit that holds without it. What cannot be read is passed over.
-/
def ofText (limit : Limit) (text : String) : Filter :=
  let usual : Directive := ⟨none, limit⟩
  match text.splitOn "/" with
  | [directives] => ⟨usual :: directivesOfText directives, none⟩
  | [directives, pattern] => ⟨usual :: directivesOfText directives, Text.Pattern.ofText? pattern⟩
  | _ => ⟨[usual], none⟩

end Filter

/-- Where the environment holds a filter. -/
def variableName : String := "RUST_LOG"

/-- The filter of a run, which tells more if it is to be verbose. -/
def Filter.ofEnvironment (environment : String → Option String) (verbose : Bool) : Filter :=
  .ofText (some (if verbose then .debug else .info)) ((environment variableName).getD "")

/-- How a message is told. Its lines but the first are moved to the right. -/
def line (level : Level) (message : String) : String :=
  "[" ++ level.name ++ " " ++ source ++ "] " ++
    "\n    ".intercalate (message.splitOn "\n")

end WorkLedger.Log
