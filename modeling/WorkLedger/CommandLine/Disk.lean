import WorkLedger.CommandLine.Machine

/-! A file tree in memory: folders, files, and folders that hold a store. Commands run on it as they
run on a computer, so what they do to files is a function of what was there. -/

namespace WorkLedger.CommandLine

/-- Names from the root of the tree downwards. -/
abbrev Path := List String

structure Disk where
  /-- Where a path starts that does not start at the root. -/
  home : Path
  /-- All folders but the root. -/
  folders : List Path
  files : List (Path × Bytes)
  stores : List (Path × Store)

namespace Disk

inductive Refusal
  | missing
  | notFolder
  | isFolder
  | noSpace
  | nameTooLong
  deriving Repr, DecidableEq

def Refusal.message : Refusal → String
  | missing => "No such file or directory (os error 2)"
  | notFolder => "Not a directory (os error 20)"
  | isFolder => "Is a directory (os error 21)"
  | noSpace => "No space left on device (os error 28)"
  | nameTooLong => "File name too long (os error 36)"

/-- Files that keep nothing of what is written to them. -/
inductive Device
  | null
  /-- Refuses what is written. -/
  | full
  /-- What is written goes to the output. -/
  | output
  /-- What is written goes to the messages. -/
  | messages
  deriving Repr, DecidableEq

/-- The devices by their names, all in one folder. -/
def devices : List (String × Device) :=
  [("null", .null), ("full", .full), ("stdout", .output), ("stderr", .messages)]

def deviceFolder : Path := ["dev"]

def device? (path : Path) : Option Device :=
  if path.dropLast = deviceFolder then path.getLast?.bind (devices.lookup ·) else none

/-- The folders that are there on every disk. -/
def usualFolders : List Path := [deviceFolder, ["etc"], ["tmp"], ["usr"], ["var"]]

/-- A disk that holds nothing but the usual and one folder. -/
def empty (home : Path) : Disk :=
  ⟨home, usualFolders ++ (List.range home.length).map fun i => home.take (i + 1),
    devices.map fun device => (deviceFolder ++ [device.1], []), []⟩

/-- How long a name may be, in bytes. -/
def nameLimit : Nat := 255

/-- How long all names of a path may be, in bytes, with what stands between them. -/
def pathLimit : Nat := 4095

def isTooLong (name : String) : Bool := nameLimit < name.utf8ByteSize

def isFolder (d : Disk) (path : Path) : Bool := path.isEmpty || d.folders.contains path

def file? (d : Disk) (path : Path) : Option Bytes := d.files.lookup path

def withFile (d : Disk) (path : Path) (content : Bytes) : Disk :=
  { d with files := (path, content) :: d.files.filter fun f => f.1 != path }

def withStore (d : Disk) (path : Path) (store : Store) : Disk :=
  { d with stores := (path, store) :: d.stores.filter fun s => s.1 != path }

/-- Where a name leads to from a folder. -/
def child (path : Path) (name : String) : Path :=
  if name = "" ∨ name = "." then path
  else if name = ".." then path.dropLast
  else path ++ [name]

/-- The names in a path, and where they start. -/
def split (d : Disk) (text : String) : Path × List String :=
  (if text.startsWith "/" then [] else d.home, text.splitOn "/")

/-- Where names lead to. Whatever a name is looked up in has to be a folder. -/
def follow (d : Disk) (path : Path) : List String → Except Refusal Path
  | [] => .ok path
  | name :: rest =>
    if (d.file? path).isSome then .error .notFolder
    else if !d.isFolder path then .error .missing
    else if isTooLong name then .error .nameTooLong
    else d.follow (child path name) rest

def locate (d : Disk) (text : String) : Except Refusal Path :=
  let (start, names) := d.split text
  if pathLimit < text.utf8ByteSize then .error .nameTooLong else d.follow start names

def read (d : Disk) (text : String) : Except Refusal (Option Bytes) :=
  match d.locate text with
  | .error _ => .ok none
  | .ok path => if d.isFolder path then .error .isFolder else .ok (d.file? path)

/-- Steps that change a disk. A step that is refused leaves what the steps before it did. -/
abbrev Action := ExceptT Refusal (StateM Disk)

def makeFolder (path : Path) : Action Unit := do
  let d ← get
  if (d.file? path).isSome then throw .notFolder
  else if path.getLast?.any isTooLong then throw .nameTooLong
  else if !d.isFolder path then set { d with folders := path :: d.folders }

/-- Follows names like `follow`, and makes the folders that are missing. -/
def makeFolders (path : Path) : List String → Action Path
  | [] => do
    makeFolder path
    return path
  | name :: rest => do
    makeFolder path
    makeFolders (child path name) rest

/-- The place of a file that may be new in a folder that is there. A slash at the end is for
folders. -/
def place (d : Disk) (text : String) : Except Refusal Path := do
  let named := (text.toList.reverse.dropWhile (· = '/')).reverse
  let (start, names) := d.split (.ofList named)
  if pathLimit < text.utf8ByteSize then throw .nameTooLong
  -- The name without characters leads nowhere else, but it has to be looked up in a folder.
  let folder ← d.follow start (names.dropLast ++ [""])
  if text.endsWith "/" then throw .isFolder
  d.follow folder (names.drop (names.length - 1))

/-- Writes a file. If a device stands in its place, that is what takes the content. -/
def write (text : String) (content : Bytes) : Action (Option Device) := do
  let d ← get
  let path ← (d.place text : Except Refusal Path)
  if d.isFolder path then throw .isFolder
  match device? path with
  | some .full => throw .noSpace
  | some device => return some device
  | none =>
    set (d.withFile path content)
    return none

/-- A file that a store needs. What is in it is not text. -/
def makeStoreFile (path : Path) : Action Unit := do
  let d ← get
  if d.isFolder path then throw .isFolder
  else if (d.file? path).isNone then set (d.withFile path [0xff])

/-- The folder of a store, which is made where it is missing, with what a store needs in it. -/
def storeFolder (text : String) : Action Path := do
  let d ← get
  let (start, names) := d.split text
  if pathLimit < text.utf8ByteSize then throw .nameTooLong
  let path ← makeFolders start names
  let inside := path ++ ["blobs"]
  if (d.file? inside).isNone then makeFolder inside
  makeStoreFile (path ++ ["conf"])
  makeStoreFile (path ++ ["db"])
  return path

def openStore (text : String) : Action Store := do
  let path ← storeFolder text
  return ((← get).stores.lookup path).getD .empty

/-- Puts a store back. After that, what it holds for other programs becomes a file of its own. -/
def keepStore (text : String) (store : Store) : Action Unit := do
  let path ← storeFolder text
  modify (·.withStore path { store with document := none })
  match store.document with
  | none => return
  | some document =>
    let _ ← write (text ++ "/" ++ Store.documentName) (Bytes.ofText document)

end Disk

/-- A disk, what was printed, and what was told beside that. -/
structure Session where
  disk : Disk
  printed : String := ""
  told : String := ""

/-- Steps on the disk of a session. What is refused is told in the words of the caller. -/
def Session.act {ε α : Type} (explain : Disk.Refusal → ε) (action : Disk.Action α) :
    StateM Session (Except ε α) := do
  let s ← get
  let (result, disk) := action.run s.disk
  set { s with disk := disk }
  return result.mapError explain

/-- What a device does with text. -/
def Session.give (text : String) : Option Disk.Device → StateM Session Unit
  | some .output => modify fun s => { s with printed := s.printed ++ text }
  | some .messages => modify fun s => { s with told := s.told ++ text }
  | _ => pure ()

/-- A disk as a machine. It stands at one moment, and a run takes no more turns than given. -/
def Session.machine (moment : Moment) (environment : String → Option String) (turns : Nat) :
    Machine (StateM Session) where
  moment := pure moment
  environment := pure environment
  readFile path := do return ((← get).disk.read path).mapError Disk.Refusal.message
  writeFile path content := do
    match ← Session.act Disk.Refusal.message (Disk.write path (Bytes.ofText content)) with
    | .error reason => return .error reason
    | .ok device =>
      Session.give content device
      return .ok ()
  openStore folder :=
    Session.act (fun _ => .database "Failed to open database") (Disk.openStore folder)
  keepStore folder store :=
    Session.act (fun refusal => .io refusal.message) (Disk.keepStore folder store)
  print text := Session.give text (some .output)
  tell line := Session.give (line ++ "\n") (some .messages)
  work a := pure (a.rotate moment turns)

end WorkLedger.CommandLine
