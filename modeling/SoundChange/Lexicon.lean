import SoundChange.Text.Blank

/-!
# Lexicons

A lexicon is a list of words, one in a line. Blanks around a word do not belong to it, and lines
without a word are passed over.
-/

namespace SoundChange.Lexicon

/-- The words of a lexicon, in order. -/
def words (t : Text) : List Text := ((t.splitOn '\n').map Text.trim).filter (!·.isEmpty)

end SoundChange.Lexicon
