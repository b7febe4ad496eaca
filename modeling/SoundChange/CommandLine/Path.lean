import SoundChange.CommandLine.Surroundings

/-!
# Paths

A path is read as the names between its slashes. One dot stays in a directory and two dots lead to
the directory above. Systems follow no path and hold no name beyond a number of bytes.
-/

namespace SoundChange.CommandLine

/-- The names on the way from the root of all directories down to a place. -/
abbrev Way := List Text

/-- What a path says. -/
structure Path where
  /-- The path starts at the root and not in the working directory. -/
  fromRoot : Bool
  /-- What stands between the slashes, in order. -/
  names : List Text
  /-- A slash at the end says that a directory is meant. -/
  toDirectory : Bool
  deriving DecidableEq, Repr

namespace Path

/-- The name by which each directory holds itself. -/
def dot : Text := ['.']

/-- The name by which each directory holds the one above it. -/
def dots : Text := ['.', '.']

/-- The bytes that a text takes. -/
def byteCount (t : Text) : Nat := (String.ofList t).utf8ByteSize

/-- A name with more bytes than any directory can hold. -/
def isLongName (name : Text) : Bool := 255 < byteCount name

/-- What a text says as a path. -/
def ofText (t : Text) : Path :=
  { fromRoot := t.head? = some '/'
    names := (t.splitOn '/').filter fun name => !name.isEmpty
    toDirectory := t.getLast? = some '/' }

/-- What a text says as a path, if a system follows it at all. -/
def read (t : Text) : Except FileError Path :=
  if t.isEmpty then .error .notFound
  else if 4095 < byteCount t then .error .nameTooLong
  else .ok (ofText t)

/-- A lone hyphen stands for the standard input, and stays one with slashes and dots behind it. -/
def isStandardInput (p : Path) : Bool :=
  match p.names with
  | ['-'] :: rest => !p.fromRoot && rest.all (· = dot)
  | _ => false

end Path

end SoundChange.CommandLine
