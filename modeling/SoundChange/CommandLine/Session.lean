import SoundChange.CommandLine.Path

/-!
# Sessions in memory

Files, an environment and an input held in memory, for running a program without a system around
it. What the program writes is kept beside them. The clock stands still.

A path is followed name by name (`Session.enter`), and each name but the last must lead to a
directory. Every place above a file or a device is a directory.
-/

namespace SoundChange.CommandLine

/-- A file that holds nothing of its own. -/
inductive Device where
  /-- Forgets what is written to it. -/
  | null
  /-- Has no space for anything. -/
  | full
  | input
  | output
  | errors
  deriving DecidableEq, Repr

/-- What is at a place. -/
inductive Node where
  | file (bytes : ByteArray)
  | device (device : Device)
  | directory

/-- What a program finds, and what it has written so far. -/
structure Session where
  files : List (Way × ByteArray) := []
  /-- What is still to be read from the standard input. -/
  input : ByteArray := .empty
  environment : List (String × Text) := []
  /-- What is on the standard output. -/
  output : String := ""
  /-- What is on the standard error stream. -/
  errors : String := ""

namespace Session

/-- The names on an absolute path. -/
def way (path : String) : Way := (Path.ofText path.toList).names

/-- The working directory. -/
def home : Way := way "/tmp/session"

/-- The directories that are there without any file in them. -/
def standingDirectories : List Way :=
  [home] ++ ["/bin", "/boot", "/etc", "/home", "/lib", "/media", "/mnt", "/opt", "/proc", "/root",
    "/run", "/sbin", "/srv", "/sys", "/usr", "/var"].map way

/-- The devices and their places. -/
def devices : List (Way × Device) :=
  [("/dev/null", .null), ("/dev/full", .full), ("/dev/stdin", .input), ("/dev/stdout", .output),
    ("/dev/stderr", .errors), ("/dev/fd/0", .input), ("/dev/fd/1", .output),
    ("/dev/fd/2", .errors)].map fun (path, device) => (way path, device)

/-- The session with some files in its working directory. -/
def ofFiles (files : List (Text × ByteArray)) : Session :=
  { files := files.map fun (name, bytes) => (home ++ (Path.ofText name).names, bytes) }

/-- A file, a device or a standing directory is at a place or below it. -/
def isDirectory (s : Session) (w : Way) : Bool :=
  (standingDirectories ++ devices.map (·.1) ++ s.files.map (·.1)).any w.isPrefixOf

/-- What is at a place. -/
def node? (s : Session) (w : Way) : Option Node :=
  match s.files.lookup w, devices.lookup w with
  | some bytes, _ => some (.file bytes)
  | none, some d => some (.device d)
  | none, none => if s.isDirectory w then some .directory else none

/-- Where a name leads from a place, which must be a directory. -/
def enter (s : Session) (w : Way) (name : Text) : Except FileError Way :=
  match s.node? w with
  | some .directory =>
    if name = Path.dot then .ok w
    else if name = Path.dots then .ok w.dropLast
    else if Path.isLongName name then .error .nameTooLong
    else .ok (w ++ [name])
  | some _ => .error .notDirectory
  | none => .error .notFound

/-- Where some names lead from the place that a path starts at. -/
def follow (s : Session) (p : Path) (names : List Text) : Except FileError Way :=
  names.foldlM s.enter (if p.fromRoot then [] else home)

/-- The place that a path leads to; a slash at its end is as good as a dot behind the slash. -/
def place (s : Session) (path : Text) : Except FileError Way := do
  let p ← Path.read path
  s.follow p (if p.toDirectory then p.names ++ [Path.dot] else p.names)

/-- The place that a path names for a file, whether there is one or not. -/
def placeForFile (s : Session) (path : Text) : Except FileError Way := do
  let p ← Path.read path
  match p.names.getLast? with
  | none => throw .isDirectory
  | some name =>
    let directory ← s.follow p (p.names.dropLast ++ [Path.dot])
    if p.toDirectory || name = Path.dot || name = Path.dots then throw .isDirectory
    else s.enter directory name

/-- Gives a file a new content. -/
def put (s : Session) (w : Way) (bytes : ByteArray) : Session :=
  { s with files := (w, bytes) :: s.files.filter (·.1 ≠ w) }

/-- Reads the rest of the input. -/
def takeInput (s : Session) : Except FileError Text × Session :=
  (decode s.input, { s with input := .empty })

/-- Reads a file. -/
def read (s : Session) (path : Text) : Except FileError Text × Session :=
  match s.place path with
  | .error e => (.error e, s)
  | .ok w =>
    match s.node? w with
    | some (.file bytes) => (decode bytes, s)
    | some (.device .input) => s.takeInput
    | some (.device _) => (.ok [], s)
    | some .directory => (.error .isDirectory, s)
    | none => (.error .notFound, s)

/-- Makes a file empty, and creates it first if there is none. -/
def create (s : Session) (path : Text) : Except FileError Session := do
  let w ← s.placeForFile path
  match s.node? w with
  | some (.device _) => return s
  | some .directory => throw .isDirectory
  | some (.file _) | none => return s.put w .empty

/-- Writes a line to the standard error stream. -/
def report (s : Session) (line : String) : Session :=
  { s with errors := s.errors ++ line ++ "\n" }

/-- Adds to the end of what is at a place. -/
def appendAt (s : Session) (w : Way) (t : Text) : Except FileError Session :=
  match s.node? w with
  | some (.file bytes) => .ok (s.put w (bytes ++ (String.ofList t).toUTF8))
  | some (.device .full) => .error .noSpace
  | some (.device .output) => .ok { s with output := s.output ++ .ofList t }
  | some (.device .errors) => .ok { s with errors := s.errors ++ .ofList t }
  | some (.device _) => .ok s
  | some .directory => .error .isDirectory
  | none => .error .notFound

/-- Adds to the end of a file or of the standard output. -/
def append (s : Session) (path : Option Text) (t : Text) : Except FileError Session :=
  match path with
  | none => .ok { s with output := s.output ++ .ofList t }
  | some path => do s.appendAt (← s.place path) t

/-- Goes on with the session that an action leaves, if it is not refused. -/
def change (action : Session → Except FileError Session) :
    StateM Session (Except FileError Unit) := fun s =>
  match action s with
  | .ok s => (.ok (), s)
  | .error e => (.error e, s)

end Session

instance : Surroundings (StateM Session) where
  environment name := return (← get).environment.lookup name
  readFile path := modifyGet (·.read path)
  readInput := modifyGet (·.takeInput)
  createFile path := Session.change (·.create path)
  write path t := Session.change (·.append path t)
  report line := modify (·.report line)
  clock := return 0

end SoundChange.CommandLine
