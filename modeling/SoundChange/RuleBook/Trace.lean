import SoundChange.RuleBook.Basic
import SoundChange.Text.Json

/-!
# Traces

What each law of a rule book did to a word. The listing of a trace shows the laws that changed the
word and their changes; its JSON text has all laws.

`RuleBook.trace` goes through the laws as `RuleBook.apply` does, and keeps what they did.
-/

namespace SoundChange

/-- What one law did to a word. -/
structure LawTrace where
  rule : Text
  input : Text
  output : Text
  changes : List Change
  deriving DecidableEq, Repr

/-- The way of a word through a rule book. -/
structure WordTrace where
  word : Text
  result : Text
  laws : List LawTrace
  deriving DecidableEq, Repr

/-- The law made a change. -/
def LawTrace.changed (t : LawTrace) : Bool := !t.changes.isEmpty

/-- What a law does to a word. -/
def SoundLaw.trace (law : SoundLaw) (options : ApplyOptions) (word : Text) : LawTrace :=
  let (output, changes) := law.apply options word
  ⟨law.display, word, output, changes⟩

namespace RuleBook

/-- What each of some laws does to the word that the one before it gives. -/
def traceLaws (options : ApplyOptions) (word : Text) : List SoundLaw → List LawTrace
  | [] => []
  | law :: laws =>
    let t := law.trace options word
    t :: traceLaws options t.output laws

/-- What each law of a book does to a word. -/
def trace (b : RuleBook) (options : ApplyOptions) (word : Text) : WordTrace :=
  let laws := traceLaws options word b.laws
  ⟨word, (laws.getLast?.map LawTrace.output).getD word, laws⟩

end RuleBook

/-- A word and what became of it. -/
def arrow (before after : Text) : Text := before ++ [' ', '→', ' '] ++ after

/-- A new line with some indentation. -/
def indented (depth : Nat) (t : Text) : Text := '\n' :: List.replicate depth ' ' ++ t

/-- The lines about a law. -/
def LawTrace.display (t : LawTrace) : Text :=
  indented 4 t.rule ++ indented 8 (arrow t.input t.output) ++
    t.changes.flatMap fun c => indented 12 c.display

/-- The word and its result, and below them the laws that changed it. -/
def WordTrace.display (t : WordTrace) : Text :=
  arrow t.word t.result ++ (t.laws.filter LawTrace.changed).flatMap LawTrace.display

/-- The JSON text of a change. -/
def Change.json (c : Change) : Text :=
  Text.Json.object [("from_literal".toList, Text.Json.string c.replaced),
    ("replacement".toList, Text.Json.string c.replacement),
    ("source".toList, Text.Json.string c.source), ("target".toList, Text.Json.string c.target)]

/-- The JSON text of what a law did. -/
def LawTrace.json (t : LawTrace) : Text :=
  Text.Json.object [("rule".toList, Text.Json.string t.rule),
    ("input".toList, Text.Json.string t.input), ("output".toList, Text.Json.string t.output),
    ("transforms".toList, Text.Json.array (t.changes.map Change.json))]

/-- The JSON text of a trace. -/
def WordTrace.json (t : WordTrace) : Text :=
  Text.Json.object [("word".toList, Text.Json.string t.word),
    ("result".toList, Text.Json.string t.result),
    ("rules".toList, Text.Json.array (t.laws.map LawTrace.json))]

end SoundChange
