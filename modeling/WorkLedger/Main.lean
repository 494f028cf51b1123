import Std.Time.DateTime.Timestamp
import WorkLedger.CommandLine.Disk
import WorkLedger.CommandLine.Run
import WorkLedger.Store.Image

/-! The program: its commands on a real computer. What they do is decided elsewhere; here the clock,
the files and the output are joined to it. -/

namespace WorkLedger.Program

open CommandLine (Disk Machine)

def moment : IO Moment := do
  let time ← Std.Time.Timestamp.now
  let random ← IO.getRandomBytes 32
  return ⟨Int64.ofInt time.toMillisecondsSinceUnixEpoch.val, Bytes.ofBigEndian random.toList⟩

/-- Whether a code has this number. It may come with its sign turned. -/
def isNumber (code number : UInt32) : Bool := code == number || code == 0 - number

/-- What went wrong, if it is one of the ways that have words of their own. -/
def refusal? : IO.Error → Option Disk.Refusal
  | .noFileOrDirectory .. => some .missing
  | .inappropriateType _ code _ => some (if isNumber code 20 then .notFolder else .isFolder)
  | .invalidArgument _ code _ => if isNumber code 36 then some .nameTooLong else none
  | .resourceExhausted _ code _ => if isNumber code 28 then some .noSpace else none
  | _ => none

def reason (e : IO.Error) : String := ((refusal? e).map Disk.Refusal.message).getD (toString e)

def load (path : String) : IO (Except String (Option Bytes)) := do
  try
    let content ← IO.FS.readBinFile path
    return .ok (some content.toList)
  catch e =>
    match refusal? e with
    | some .missing | some .notFolder | some .nameTooLong => return .ok none
    | _ => return .error (reason e)

def keep (path : String) (content : Bytes) : IO (Except String Unit) := do
  try
    IO.FS.writeBinFile path ⟨content.toArray⟩
    return .ok ()
  catch e => return .error (reason e)

/-- The file of a store in its folder. -/
def storeFile (folder : String) : String := folder ++ "/db"

def openStore (folder : String) : IO (Except Error Store) := do
  let refused : Except Error Store := .error (.database "Failed to open database")
  try
    IO.FS.createDirAll folder
    match ← load (storeFile folder) with
    | .ok none => return .ok .empty
    | .ok (some bytes) => return (Store.ofImage? bytes).elim refused .ok
    | .error _ => return refused
  catch _ => return refused

def keepStore (folder : String) (s : Store) : IO (Except Error Unit) := do
  match ← keep (storeFile folder) s.image with
  | .error reason => return .error (.io reason)
  | .ok () =>
    match s.document with
    | none => return .ok ()
    | some document =>
      return (← keep (folder ++ "/" ++ Store.documentName) (Bytes.ofText document)).mapError .io

/-- Gives turns until all have ended. -/
partial def workFrom (i : Nat) (a : Arena) : IO Arena := do
  if a.ended && a.shared.stopped then return a
  else workFrom (i + 1) (a.turn (a.workerAt i) (← moment))

def machine : Machine IO where
  moment := moment
  environment := do
    let known ← (Log.variableName :: Settings.environmentNames).filterMapM fun name => do
      return (← IO.getEnv name).map (name, ·)
    return fun name => known.lookup name
  readFile := load
  writeFile path text := keep path (Bytes.ofText text)
  openStore := openStore
  keepStore := keepStore
  print := IO.print
  tell := IO.eprintln
  work := workFrom 0

end WorkLedger.Program

open WorkLedger in
def main (arguments : List String) : IO UInt32 := do
  let outcome ← CommandLine.run Program.machine arguments
  match outcome with
  | .done | .failed _ => pure ()
  | .misused misuse =>
    if misuse = .helpRequested then IO.println misuse.message else IO.eprintln misuse.message
  return outcome.code
