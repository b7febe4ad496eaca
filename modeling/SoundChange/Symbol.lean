import SoundChange.Order

/-!
# Symbols

The alphabet that automata read: characters, the two edges of a word, and the silent symbol, which
reads nothing. A word is put into its `coat` of edges before it is read.

`instRankedSymbol` orders the silent symbol first, then the edges, then the characters.
-/

namespace SoundChange

/-- What stands on an edge of an automaton. -/
inductive Symbol where
  /-- Passed without reading anything. -/
  | lambda
  /-- The start of the word. -/
  | wordStart
  /-- The end of the word. -/
  | wordEnd
  /-- A character of the word. -/
  | char (c : Char)
  deriving DecidableEq, Repr

namespace Symbol

/-- The character, unless the symbol stands for none. -/
def char? : Symbol → Option Char
  | char c => some c
  | _ => none

/-- The symbol stands for no character. -/
def isSentinel (s : Symbol) : Bool := s.char?.isNone

/-- The picture of a symbol: the control pictures for null, start and end of text. -/
def display : Symbol → Char
  | lambda => '\u2400'
  | wordStart => '\u2402'
  | wordEnd => '\u2403'
  | char c => c

/-- The symbols of a text. -/
def ofText (t : Text) : List Symbol := t.map char

/-- The symbols of a word between its two edges. -/
def coat (word : Text) : List Symbol := wordStart :: (ofText word ++ [wordEnd])

/-- The characters of a run of symbols. -/
def text (symbols : List Symbol) : Text := symbols.filterMap char?

/-- The place of a symbol in the order: the characters come after the other three. -/
def rank : Symbol → Nat
  | lambda => 0
  | wordStart => 1
  | wordEnd => 2
  | char c => c.toNat + 3

theorem rank_injective {s t : Symbol} (h : s.rank = t.rank) : s = t := by
  cases s <;> cases t <;> simp only [rank] at h <;> first | rfl | omega | skip
  exact congrArg char (Char.toNat_inj.mp (by omega))

@[simp] theorem text_ofText (t : Text) : text (ofText t) = t := by
  induction t with
  | nil => rfl
  | cons c t ih =>
    have : text (ofText (c :: t)) = c :: text (ofText t) := rfl
    rw [this, ih]

end Symbol

instance instRankedSymbol : Ranked Symbol :=
  ⟨compareOn Symbol.rank, inferInstance,
    ⟨fun h => Symbol.rank_injective (Ranked.ordering_eq.mp h)⟩⟩

end SoundChange
