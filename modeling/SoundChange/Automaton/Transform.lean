import SoundChange.Order

/-!
# Transforms

What the edges of an automaton do to the text that they read. An ordinary transform writes its
replacement for all text read since the last one; a null transform holds its text back. The text of
one unit of a rule's target is never written together with that of another.
-/

namespace SoundChange

/-- The number of a transform in its automaton. -/
abbrev TransformId := Nat

/-- An annotation of edges: what it writes, the element it comes from, the result it belongs to, and
the unit of the target. -/
structure Transform where
  isNull : Bool
  replacement : Text
  source : Text
  target : Text
  unit : Nat
  deriving DecidableEq, Repr, Inhabited

/-- The record of a change made to a word. -/
structure Change where
  replaced : Text
  replacement : Text
  source : Text
  target : Text
  deriving DecidableEq, Repr, Inhabited

namespace Transform

/-- A transform that writes a replacement. -/
def ordinary (replacement source target : Text) (unit : Nat) : Transform :=
  ⟨false, replacement, source, target, unit⟩

/-- A transform that holds its text back. -/
def null (source target : Text) (unit : Nat) : Transform := ⟨true, [], source, target, unit⟩

/-- The record of applying a transform to some text. -/
def applied (t : Transform) (replaced : Text) : Change :=
  ⟨replaced, t.replacement, t.source, t.target⟩

end Transform

/-- The change in one line. -/
def Change.display (c : Change) : Text :=
  c.replaced ++ [' ', '('] ++ c.source ++ [')', ' ', '→', ' '] ++ c.replacement ++ [' ', '('] ++
    c.target ++ [')']

end SoundChange
