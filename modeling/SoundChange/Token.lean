import SoundChange.Order

/-!
# Tokens

The lexical units of a rule file: their kinds, where they stand, and how error messages name them.
-/

namespace SoundChange

/-- A place in a rule file, counted from line 1 and column 1 in characters. -/
structure Position where
  line : Nat := 1
  column : Nat := 1
  deriving DecidableEq, Repr, Inhabited

namespace Position

/-- The place after one more character. -/
def next (p : Position) (c : Char) : Position :=
  if c = '\n' then ⟨p.line + 1, 1⟩ else ⟨p.line, p.column + 1⟩

/-- The place after a run of characters. -/
def after (p : Position) (t : Text) : Position := t.foldl next p

/-- The start of a file. -/
def start : Position := ⟨1, 1⟩

end Position

/-- The kinds of tokens. -/
inductive TokenKind where
  | openBracket
  | closeBracket
  | openBrace
  | closeBrace
  | openParen
  | closeParen
  | slash
  | placeholder
  | boundary
  | arrow
  | plus
  | minus
  | pipe
  | comma
  /-- A run of segment characters: an utterance or a bare name. -/
  | word
  /-- An identifier; the token's text is the bare name. -/
  | identifier
  /-- The end of a line outside braces. -/
  | newline
  /-- A character without a use. -/
  | stray
  /-- The end of the file. -/
  | endOfFile
  deriving DecidableEq, Repr

/-- The name of a kind in a list of what was expected. -/
def TokenKind.describe : TokenKind → String
  | openBracket => "'['"
  | closeBracket => "']'"
  | openBrace => "'\x7b'"
  | closeBrace => "'\x7d'"
  | openParen => "'('"
  | closeParen => "')'"
  | slash => "'/'"
  | placeholder => "'_'"
  | boundary => "'#'"
  | arrow => "'=>'"
  | plus => "'+'"
  | minus => "'-'"
  | pipe => "'|'"
  | comma => "','"
  | word => "an utterance"
  | identifier => "an identifier"
  | newline => "end of line"
  | stray => "an unrecognized character"
  | endOfFile => "end of file"

/-- A lexical unit with its text and the place where it begins. -/
structure Token where
  kind : TokenKind
  text : Text
  position : Position
  deriving DecidableEq, Repr

namespace Token

/-- The token after the last character of a file. -/
def eof (p : Position) : Token := ⟨.endOfFile, [], p⟩

/-- The token's text in an error message. -/
def shown (t : Token) : Text :=
  match t.kind with
  | .endOfFile => ['E', 'O', 'F']
  | .newline => ['\\', 'n']
  | _ => t.text

/-- The token can name a category or a feature-set. -/
def isName (t : Token) : Bool := t.kind = .word || t.kind = .identifier

end Token

end SoundChange
