import SoundChange.Order

/-!
# Surroundings

What a program asks of the system that it runs on: variables, files, the standard streams and the
time. Programs are written against `Surroundings`, so that the same program runs on a real system
and in memory.
-/

namespace SoundChange.CommandLine

/-- Why a file or a stream cannot be used. -/
inductive FileError where
  /-- The system refuses, for a reason that it has a number for. -/
  | refused (reason : String) (number : Nat)
  /-- The content is no text. -/
  | notText
  deriving DecidableEq, Repr

namespace FileError

/-- The phrase that reports the error. -/
def message : FileError → String
  | refused reason number => reason ++ " (os error " ++ toString number ++ ")"
  | notText => "stream did not contain valid UTF-8"

def notFound : FileError := refused "No such file or directory" 2

def notDirectory : FileError := refused "Not a directory" 20

def isDirectory : FileError := refused "Is a directory" 21

def noSpace : FileError := refused "No space left on device" 28

def nameTooLong : FileError := refused "File name too long" 36

end FileError

/-- The text that some bytes encode. -/
def decode (bytes : ByteArray) : Except FileError Text :=
  match String.fromUTF8? bytes with
  | some s => .ok s.toList
  | none => .error .notText

/-- What a program can ask of its system. -/
class Surroundings (m : Type → Type) where
  /-- The value of a variable. -/
  environment : String → m (Option Text)
  /-- The text of a file. -/
  readFile : Text → m (Except FileError Text)
  /-- The text of the standard input. -/
  readInput : m (Except FileError Text)
  /-- Makes a file empty, and creates it first if there is none. -/
  createFile : Text → m (Except FileError Unit)
  /-- Adds to the end of a file, or of the standard output if no file is named. -/
  write : Option Text → Text → m (Except FileError Unit)
  /-- Writes a line to the standard error stream. -/
  report : String → m Unit
  /-- The time in nanoseconds since some fixed moment. -/
  clock : m Nat

end SoundChange.CommandLine
