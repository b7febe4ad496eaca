import SoundChange.Application.Path

/-!
# The output of a path

What a path through an automaton writes. A symbol without a transform stands for itself. A null
transform holds its text back until an ordinary or a default transform of the same unit writes
something for all of it; text that is still held when the unit is over has been deleted. Every
change is recorded with the text it was made of.
-/

namespace SoundChange

/-- What has been written along a path, and the text held back. -/
structure Output where
  written : Text := []
  changes : List Change := []
  /-- Text read by null transforms and not yet written for. -/
  held : Text := []
  /-- The null transform that holds text back. -/
  holder : Option TransformId := none
  /-- The number of symbols read. -/
  position : Nat := 0
  /-- Where the target ends so far, and what was written up to there. -/
  targetEnd : Option (Nat × Text) := none
  deriving DecidableEq, Repr

namespace Output

/-- The held text is deleted. -/
def release (a : Automaton) (o : Output) : Output :=
  if o.held = [] then o
  else
    let changes := match o.holder.bind a.transform? with
      | some t => o.changes ++ [{ t.applied o.held with replacement := [] }]
      | none => o.changes
    { o with changes, held := [], holder := none }

/-- The text held by another unit is deleted. -/
def switchUnit (a : Automaton) (unit : Nat) (o : Output) : Output :=
  if (o.holder.bind a.transform?).any (·.unit ≠ unit) then o.release a else o

/-- Writes a replacement for the held text and a last piece. -/
def write (t : Transform) (last : Text) (o : Output) : Output :=
  { o with
    written := o.written ++ t.replacement
    changes := o.changes ++ [t.applied (o.held ++ last)]
    held := []
    holder := none }

/-- The target ends at the present position for now. -/
def markTarget (o : Output) : Output := { o with targetEnd := some (o.position, o.written) }

/-- Leaves a state without reading: its default transform writes for the held text. -/
def passSilently (a : Automaton) (id : StateId) (o : Output) : Output :=
  match (a.default? id).bind a.transform? with
  | some t => ((o.switchUnit a t.unit).write t []).markTarget
  | none => o

/-- The text of a symbol. -/
def textOf (symbol : Symbol) : Text := symbol.char?.toList

/-- Holds back the text of a symbol for a null transform. -/
def hold (id : TransformId) (symbol : Symbol) (o : Output) : Output :=
  { o with held := o.held ++ textOf symbol, holder := some id }

/-- Writes a symbol as it is. -/
def copy (symbol : Symbol) (o : Output) : Output :=
  { o with written := o.written ++ textOf symbol }

/-- Reads a symbol in a state: its transform writes or holds, or else it is copied. A transform that
the automaton does not know swallows the symbol. -/
def readSymbol (a : Automaton) (id : StateId) (symbol : Symbol) (o : Output) : Output :=
  let next (o : Output) : Output := { o with position := o.position + 1 }
  match a.attached? id symbol with
  | none => next ((o.release a).copy symbol)
  | some n =>
    match a.transform? n with
    | none => next o
    | some t =>
      let o := o.switchUnit a t.unit
      if t.isNull then (next (o.hold n symbol)).markTarget
      else (next (o.write t (textOf symbol))).markTarget

/-- Takes one step of a path. -/
def step (a : Automaton) (o : Output) (s : Step) : Output :=
  if s.symbol = .lambda then o.passSilently a s.source else o.readSymbol a s.source s.symbol

/-- The output of a whole path. -/
def ofPath (a : Automaton) (path : List Step) : Output :=
  (path.foldl (step a) {}).release a

end Output

end SoundChange
