import SoundChange.Text.Blank

/-!
# Characters of rule files and words

`CharClass` divides the characters of a rule file by the job they do there. Letters of any script,
phonetic symbols, digits and diacritics all belong to segments; what is left over after the
grammar's own punctuation, blanks, control characters and the rest of ASCII punctuation.
-/

namespace SoundChange.Text

/-- What a character does in a rule file. -/
inductive CharClass where
  /-- A blank that separates tokens and does not end a line. -/
  | blank
  /-- The line feed. -/
  | newline
  /-- A punctuation character of the rule grammar. -/
  | punctuation
  /-- The semicolon, which starts a comment up to the end of the line. -/
  | comment
  /-- The dollar sign, which starts an identifier. -/
  | sigil
  /-- A character of a segment or a name. -/
  | segment
  /-- A character without a use. -/
  | unknown
  deriving DecidableEq, Repr

/-- The first spacing modifier letter and the last reserved combining mark. -/
def modifierRange : Nat × Nat := (0x2B0, 0x341)

/-- A diacritic or modifier letter, which belongs to the segment before it. -/
def isModifier (c : Char) : Bool :=
  decide (modifierRange.1 ≤ c.toNat) && decide (c.toNat ≤ modifierRange.2)

/-- The punctuation of the rule grammar. -/
def grammarPunctuation : List Char :=
  ['[', ']', '\x7b', '\x7d', '(', ')', '/', '_', '#', '=', '+', '-', '|', ',']

/-- A control character: the general category `Cc`. -/
def isControl (c : Char) : Bool :=
  decide (c.toNat < 0x20) || (decide (0x7F ≤ c.toNat) && decide (c.toNat < 0xA0))

/-- A printing ASCII character that is no letter, digit or space. -/
def isAsciiPunctuation (c : Char) : Bool :=
  decide (0x21 ≤ c.toNat) && decide (c.toNat < 0x7F) && !c.isAlphanum

/-- The class of a character; the earlier tests win. -/
def classify (c : Char) : CharClass :=
  if c = '\n' then .newline
  else if c = ';' then .comment
  else if c = '$' then .sigil
  else if grammarPunctuation.contains c then .punctuation
  else if isBlank c || c = '\uFEFF' then .blank
  else if isControl c || isAsciiPunctuation c then .unknown
  else .segment

/-- A character that segments and names are made of. -/
def isSegment (c : Char) : Bool := classify c = .segment

/-- A character that a sigil's identifier is made of; a hyphen only with a further test. -/
def isIdentifier (c : Char) : Bool := c.isAlphanum || c = '-'

end SoundChange.Text
