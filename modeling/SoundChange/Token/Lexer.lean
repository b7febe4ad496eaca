import SoundChange.Text.Character
import SoundChange.Token

/-!
# Reading tokens

A rule file is cut into lexemes one after the other, each with the characters that it covers; the
lexemes that are not blanks or comments become tokens. A line feed inside braces is no token, so a
declaration may run over several lines.

`Lexeme.extent_append_rest` says that a lexeme covers the beginning of the file, so the lexemes of
a file put together are the file; `Lexeme.rest_length` is what makes `tokenizeFrom` total.
-/

namespace SoundChange

/-- The first piece of a text: its token, if it makes one, and the characters it covers. -/
structure Lexeme where
  kind : Option TokenKind
  text : Text
  extent : Text
  rest : Text
  deriving DecidableEq, Repr

namespace Lexeme

open Text (classify isSegment isIdentifier)

/-- The kind of a punctuation character. -/
def punctuationKind : Char → TokenKind
  | '[' => .openBracket
  | ']' => .closeBracket
  | '\x7b' => .openBrace
  | '\x7d' => .closeBrace
  | '(' => .openParen
  | ')' => .closeParen
  | '/' => .slash
  | '_' => .placeholder
  | '#' => .boundary
  | '+' => .plus
  | '-' => .minus
  | '|' => .pipe
  | ',' => .comma
  | _ => .stray

/-- The name at the start of a text, and what follows it. A hyphen belongs to the name only when a
letter or digit follows. -/
def splitName : Text → Text × Text
  | [] => ([], [])
  | c :: cs =>
    if isIdentifier c && (c != '-' || cs.head?.any Char.isAlphanum) then
      (c :: (splitName cs).1, (splitName cs).2)
    else ([], c :: cs)

/-- A text without a full stop at its start, and that full stop. -/
def splitStop : Text → Text × Text
  | '.' :: cs => (['.'], cs)
  | cs => ([], cs)

/-- The identifier whose sigil `c` stands before `cs`; a sigil without a name stands alone. -/
def identifier (c : Char) (cs : Text) : Lexeme :=
  let name := (splitName cs).1
  let stopped := splitStop (splitName cs).2
  if name = [] then ⟨some .stray, [c], [c], cs⟩
  else ⟨some .identifier, name, c :: (name ++ stopped.1), stopped.2⟩

/-- The punctuation `c` before `cs`: an equals sign is only good in an arrow. -/
def punctuation (c : Char) (cs : Text) : Lexeme :=
  match c, cs with
  | '=', '>' :: rest => ⟨some .arrow, ['=', '>'], ['=', '>'], rest⟩
  | _, _ => ⟨some (punctuationKind c), [c], [c], cs⟩

/-- The lexeme that starts with the character `c` and goes on in `cs`. -/
def read (c : Char) (cs : Text) : Lexeme :=
  match classify c with
  | .blank => ⟨none, [c], [c], cs⟩
  | .newline => ⟨some .newline, [c], [c], cs⟩
  | .comment =>
    let body := c :: cs.takeWhile (· != '\n')
    ⟨none, body, body, cs.dropWhile (· != '\n')⟩
  | .sigil => identifier c cs
  | .segment =>
    let word := c :: cs.takeWhile isSegment
    ⟨some .word, word, word, cs.dropWhile isSegment⟩
  | .punctuation => punctuation c cs
  | .unknown => ⟨some .stray, [c], [c], cs⟩

theorem splitName_append : ∀ cs : Text, (splitName cs).1 ++ (splitName cs).2 = cs
  | [] => rfl
  | c :: cs => by
    rw [splitName]
    split
    · simp [splitName_append cs]
    · rfl

theorem splitStop_append (cs : Text) : (splitStop cs).1 ++ (splitStop cs).2 = cs := by
  unfold splitStop
  split <;> rfl

theorem extent_append_rest (c : Char) (cs : Text) :
    (read c cs).extent ++ (read c cs).rest = c :: cs := by
  unfold read
  split
  · rfl
  · rfl
  · simp [List.takeWhile_append_dropWhile]
  · simp only [identifier]
    split
    · rfl
    · simp [splitStop_append, splitName_append]
  · simp [List.takeWhile_append_dropWhile]
  · unfold punctuation
    split <;> simp
  · rfl

theorem extent_ne_nil (c : Char) (cs : Text) : (read c cs).extent ≠ [] := by
  unfold read
  split <;> try simp
  · simp only [identifier]
    split <;> simp
  · unfold punctuation
    split <;> simp

theorem rest_length (c : Char) (cs : Text) : (read c cs).rest.length < (c :: cs).length := by
  have h := congrArg List.length (extent_append_rest c cs)
  have h' := List.length_pos_iff.mpr (extent_ne_nil c cs)
  rw [List.length_append] at h
  omega

end Lexeme

namespace Token

/-- The number of open braces after a token of some kind; a closing brace too many is ignored. -/
def braceDepth (depth : Nat) : Option TokenKind → Nat
  | some .openBrace => depth + 1
  | some .closeBrace => depth - 1
  | _ => depth

/-- The tokens of a text that begins at a place inside `depth` open braces. -/
def tokenizeFrom (depth : Nat) (p : Position) : Text → List Token
  | [] => [eof p]
  | c :: cs =>
    let lexeme := Lexeme.read c cs
    let rest := tokenizeFrom (braceDepth depth lexeme.kind) (p.after lexeme.extent) lexeme.rest
    match lexeme.kind with
    | none => rest
    | some kind =>
      if kind = .newline ∧ depth ≠ 0 then rest else ⟨kind, lexeme.text, p⟩ :: rest
termination_by t => t.length
decreasing_by exact Lexeme.rest_length c cs

/-- The tokens of a rule file, the end of the file last. -/
def tokenize (source : Text) : List Token := tokenizeFrom 0 .start source

end Token

end SoundChange
