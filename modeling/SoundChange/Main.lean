import SoundChange.CommandLine.Program

/-!
# Main

Runs the tools on a real system. The tool is the one that the program's own name ends in: the
checker if that is `check`, and the applier otherwise.
-/

namespace SoundChange.CommandLine

/-- The reason that the system gives for an error, and its number. -/
def FileError.ofSystem : IO.Error → FileError
  | .alreadyExists _ number reason | .otherError number reason | .resourceBusy number reason
  | .resourceVanished number reason | .unsupportedOperation number reason
  | .hardwareFault number reason | .unsatisfiedConstraints number reason
  | .illegalOperation number reason | .protocolError number reason | .timeExpired number reason
  | .interrupted _ number reason | .noFileOrDirectory _ number reason
  | .invalidArgument _ number reason | .permissionDenied _ number reason
  | .resourceExhausted _ number reason | .inappropriateType _ number reason
  | .noSuchThing _ number reason => .refused reason number.toNat
  | .unexpectedEof => .refused "Unexpected end of file" 0
  | .userError reason => .refused reason 0

/-- Does something on the system, which can refuse. -/
def attempt {α : Type} (action : IO α) : BaseIO (Except FileError α) := do
  match ← action.toBaseIO with
  | .ok a => return .ok a
  | .error e => return .error (.ofSystem e)

/-- Reads bytes that encode a text. -/
def attemptText (action : IO ByteArray) : BaseIO (Except FileError Text) := do
  match ← attempt action with
  | .ok bytes => return decode bytes
  | .error e => return .error e

instance : Surroundings BaseIO where
  environment name := return (← IO.getEnv name).map String.toList
  readFile path := attemptText do
    IO.FS.withFile (String.ofList path) .read fun file => file.readBinToEnd
  readInput := attemptText do (← IO.getStdin).readBinToEnd
  createFile path := attempt (IO.FS.writeFile (String.ofList path) "")
  write path t := attempt do
    match path with
    | some path =>
      IO.FS.withFile (String.ofList path) .append fun file => do
        file.putStr (String.ofList t)
        file.flush
    | none =>
      let output ← IO.getStdout
      output.putStr (String.ofList t)
      output.flush
  report line := do
    let _ ← attempt (IO.eprintln line)
  clock := IO.monoNanosNow

end SoundChange.CommandLine

open SoundChange.CommandLine in
def main (arguments : List String) : IO UInt32 := do
  let name := (← IO.appPath).fileName.getD ""
  let tool : Tool := if name.endsWith "check" then .checker else .applier
  (tool.run (arguments.map String.toList) : BaseIO UInt32)
