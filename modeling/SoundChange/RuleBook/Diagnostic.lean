import SoundChange.Error

/-!
# Diagnostics

An error with the line of the file that it belongs to. An error that has a place of its own is
reported there; any other is reported at the line where its statement begins.
-/

namespace SoundChange

/-- An error and its line. -/
structure Diagnostic where
  line : Nat
  error : RuleError
  deriving DecidableEq, Repr

namespace Diagnostic

/-- The diagnostic of an error in the statement that begins in some line. -/
def ofError (statementLine : Nat) (e : RuleError) : Diagnostic :=
  ⟨(e.position?.map Position.line).getD statementLine, e⟩

/-- The sentence that reports the error, with the line in front unless it is in the sentence. -/
def message (d : Diagnostic) : String :=
  match d.error.position? with
  | some _ => d.error.message
  | none => "Line " ++ toString d.line ++ ": " ++ d.error.message

/-- The stage at which an error shows. -/
def label : RuleError → String
  | .stray .. => "Lex error"
  | .unexpected .. => "Parse error"
  | .defective .. => "Syntax error"
  | _ => "error"

/-- The report of a diagnostic. -/
def display (d : Diagnostic) : String := label d.error ++ ": " ++ d.message

end Diagnostic

end SoundChange
