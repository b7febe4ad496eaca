import SoundChange.CommandLine.Path
import SoundChange.CommandLine.Tool
import SoundChange.Lexicon
import SoundChange.RuleBook.Trace

/-!
# Programs

What the tools of the command line do once their arguments are read. Both report what is wrong with
the rule file and go on with the rest of it; a file that cannot be read or written ends the program.
-/

namespace SoundChange.CommandLine

open Surroundings

/-- Why a program gives up. -/
inductive Failure where
  | noRules
  | unreadable (path : Text) (error : FileError)
  | unreadableInput (error : FileError)
  | notCreated (path : Text) (error : FileError)
  | notWritten (error : FileError)
  deriving DecidableEq, Repr

/-- The variable that names the rule file if the command line does not. -/
def rulesVariable : String := "SOUNDSHIFT_RULES"

/-- The sentence that reports a failure. -/
def Failure.message : Failure → String
  | noRules => "no rule file given; pass --rules or set " ++ rulesVariable
  | unreadable path e => "failed to read " ++ .ofList path ++ ": " ++ e.message
  | unreadableInput e => "failed to read stdin: " ++ e.message
  | notCreated path e => "failed to create " ++ .ofList path ++ ": " ++ e.message
  | notWritten e => "failed to write output: " ++ e.message

/-- A number of nanoseconds in milliseconds, to two places. -/
def milliseconds (nanoseconds : Nat) : String :=
  let hundredths := (nanoseconds + 5000) / 10000
  toString (hundredths / 100) ++ "." ++
    .ofList ((toString (hundredths % 100)).toList.leftpad 2 '0') ++ " ms"

/-- The line of the checker about a rule. -/
def checkLine (number : Nat) (law : SoundLaw) : Text :=
  let shown (n : Nat) : Text := (toString n).toList
  (shown number).leftpad 3 ' ' ++ "  ".toList ++ law.display.rightpad 32 ' ' ++
    " nfa=".toList ++ (shown law.automaton.size).rightpad 5 ' ' ++
    " dfa=".toList ++ (shown law.table.size).rightpad 5 ' ' ++
    " conflicts=".toList ++ shown law.table.conflicts ++ ['\n']

/-- The lines of the checker about the rules of a book and about the whole file. -/
def checkLines (b : RuleBook) (failed : Nat) : Text :=
  (b.laws.mapIdx fun i law => checkLine (i + 1) law).flatten ++
    (toString b.laws.length ++ " rules compiled, " ++ toString failed ++
      " statements failed\n").toList

/-- The lines of the applier about a word. -/
def wordLines (b : RuleBook) (options : ApplyOptions) (a : Arguments) (word : Text) : Text :=
  (if a.has "json" then (b.trace options word).json
    else if a.has "verbose" then (b.trace options word).display
    else b.apply options word) ++ ['\n']

section

variable {m : Type → Type} [Monad m] [Surroundings m]

/-- Goes on only if the system has not refused. -/
def orFail {α : Type} (failure : FileError → Failure) (result : m (Except FileError α)) :
    ExceptT Failure m α := do
  match ← result with
  | .ok a => return a
  | .error e => throw (failure e)

/-- The rule file: the one given, or else the one that the variable names. -/
def rulesPath (given : Option Text) : ExceptT Failure m Text := do
  match given with
  | some path => return path
  | none =>
    match ← (environment rulesVariable : m (Option Text)) with
    | none | some [] => throw .noRules
    | some path => return path

/-- Reads and compiles a rule file and reports what is wrong with it. -/
def loadRules (options : CompileOptions) (source : Text) : m (RuleBook × Nat) := do
  let (book, diagnostics) := RuleBook.compile options source
  for d in diagnostics do
    report d.display
  return (book, diagnostics.length)

/-- The rule file's text. -/
def readRules (given : Option Text) : ExceptT Failure m Text := do
  let path ← rulesPath given
  orFail (.unreadable path) (readFile path)

/-- The text of the lexicon: the file given, or else the standard input. -/
def readLexicon (given : Option Text) : ExceptT Failure m Text :=
  match given.filter fun path => !(Path.ofText path).isStandardInput with
  | none => orFail .unreadableInput readInput
  | some path => orFail (.unreadable path) (readFile path)

/-- Applies the laws to the words of a lexicon. -/
def applyToLexicon (a : Arguments) : ExceptT Failure m UInt32 := do
  let source ← readRules (a.value? "rules")
  let started ← (clock : m Nat)
  let (book, _) ← (loadRules {} source : m (RuleBook × Nat))
  let ended ← (clock : m Nat)
  report (m := m) ("Parsed " ++ toString book.laws.length ++ " rules in " ++
    milliseconds (ended - started))
  if a.has "verbose" then
    for law in book.laws do
      if law.table.conflicts > 0 then
        report (m := m) ("warning: " ++ .ofList law.display ++ ": " ++
          toString law.table.conflicts ++ " transform conflicts resolved while merging states")
  let words := Lexicon.words (← readLexicon (a.value? "lexicon"))
  let output := a.value? "output"
  if let some path := output then
    orFail (.notCreated path) (createFile (m := m) path)
  let options : ApplyOptions :=
    { modifierContinuation := !a.has "no-modifier-continuation"
      rescanContext := a.has "rescan-context" }
  let started ← (clock : m Nat)
  for word in words do
    orFail .notWritten (write (m := m) output (wordLines book options a word))
  let ended ← (clock : m Nat)
  report (m := m) ("Transformed " ++ toString words.length ++ " words in " ++
    milliseconds (ended - started))
  return 0

/-- Reports on a rule file. -/
def checkRules (a : Arguments) : ExceptT Failure m UInt32 := do
  let source ← readRules a.positionals.head?
  let options : CompileOptions :=
    { maxStates := ((a.value? "max-states").bind number?).getD ({} : CompileOptions).maxStates
      stripOptionals := !a.has "keep-trailing-optionals" }
  let (book, failed) ← (loadRules options source : m (RuleBook × Nat))
  orFail .notWritten (write (m := m) none (checkLines book failed))
  return if failed > 0 then 1 else 0

/-- Runs a program and gives its exit code: 1 for a failure and 2 for a usage error. -/
def Tool.run (tool : Tool) (arguments : List Text) : m UInt32 := do
  match Arguments.read tool.grammar arguments with
  | .error (.usage e) =>
    report ("error: " ++ e.message)
    return 2
  | .error .help =>
    let _ ← write none tool.help
    return 0
  | .error .version =>
    let _ ← write none tool.version
    return 0
  | .ok a =>
    let body : ExceptT Failure m UInt32 := match tool with
      | .applier => applyToLexicon a
      | .checker => checkRules a
    match ← body.run with
    | .ok code => return code
    | .error f =>
      report ("error: " ++ f.message)
      return 1

end

end SoundChange.CommandLine
