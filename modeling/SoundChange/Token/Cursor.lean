import SoundChange.Token

/-!
# Cursors over tokens

A cursor stands between the tokens already read, last one first, and the tokens ahead. Reading past
the end gives the final token again.
-/

namespace SoundChange

/-- A list of tokens and a place in it. -/
structure Cursor where
  /-- The tokens already read, the last one first. -/
  read : List Token
  ahead : List Token
  /-- The last token of all, given again by every look past the end. -/
  final : Token
  deriving DecidableEq, Repr

namespace Cursor

/-- The token that ends a list of tokens: its own last one if it is an end of file, else a new end
of file at the place of the last token. -/
def finalOf (tokens : List Token) : Token :=
  match tokens.getLast? with
  | some last => if last.kind = .endOfFile then last else .eof last.position
  | none => .eof .start

/-- The tokens with an end of file last. -/
def closed (tokens : List Token) : List Token :=
  match tokens.getLast? with
  | some last => if last.kind = .endOfFile then tokens else tokens ++ [finalOf tokens]
  | none => [finalOf tokens]

/-- The cursor before the first of some tokens. -/
def ofTokens (tokens : List Token) : Cursor := ⟨[], closed tokens, finalOf tokens⟩

/-- The token `n` places ahead. -/
def peekAt (c : Cursor) (n : Nat) : Token := c.ahead[n]?.getD c.final

/-- The token ahead. -/
def peek (c : Cursor) : Token := c.peekAt 0

/-- The cursor after the token ahead. -/
def next (c : Cursor) : Cursor :=
  match c.ahead with
  | [] => c
  | t :: ts => { c with read := t :: c.read, ahead := ts }

/-- The cursor before the token read last. -/
def back (c : Cursor) : Cursor :=
  match c.read with
  | [] => c
  | t :: ts => { c with read := ts, ahead := t :: c.ahead }

/-- The token read last. -/
def previous (c : Cursor) : Option Token := c.read.head?

/-- The file ends ahead. -/
def atEnd (c : Cursor) : Bool := c.peek.kind = .endOfFile

end Cursor

end SoundChange
