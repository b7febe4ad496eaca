import SoundChange.Order

/-!
# Blanks

The characters with the Unicode property `White_Space`, and texts with blanks cut off both ends.
`isBlank_of_isWhitespace` says that the class contains the six ASCII blanks.
-/

namespace SoundChange.Text

/-- The ranges of code points with the property `White_Space`, ends included. -/
def blankRanges : List (Nat × Nat) :=
  [(0x09, 0x0D), (0x20, 0x20), (0x85, 0x85), (0xA0, 0xA0), (0x1680, 0x1680), (0x2000, 0x200A),
    (0x2028, 0x2029), (0x202F, 0x202F), (0x205F, 0x205F), (0x3000, 0x3000)]

/-- The character has the property `White_Space`. -/
def isBlank (c : Char) : Bool :=
  blankRanges.any fun (first, last) => decide (first ≤ c.toNat) && decide (c.toNat ≤ last)

theorem isBlank_of_isWhitespace {c : Char} (h : c.isWhitespace = true) : isBlank c = true := by
  simp only [Char.isWhitespace, Bool.or_eq_true, decide_eq_true_eq] at h
  rcases h with ((rfl | rfl) | rfl) | rfl <;> decide

/-- The text without its blanks at the start. -/
def trimStart (t : Text) : Text := t.dropWhile isBlank

/-- The text without its blanks at either end. -/
def trim (t : Text) : Text := (trimStart (trimStart t).reverse).reverse

end SoundChange.Text
