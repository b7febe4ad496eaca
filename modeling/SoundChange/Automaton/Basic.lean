import SoundChange.Automaton.State
import SoundChange.Automaton.Transform
import SoundChange.RankedMap
import SoundChange.Symbol

/-!
# Automata

A nondeterministic automaton with transforms. Its edges are kept in the order in which they were
added, which is the order of preference when a word is read. A transform is attached to a state
and a symbol; a state can also have a default transform, for when it is left without reading.

Two states are there from the beginning: `start`, and `reject`, which an edge leads to in order to
forbid a symbol.
-/

namespace SoundChange

/-- An edge out of a state. -/
structure Edge where
  symbol : Symbol
  target : StateId
  deriving DecidableEq, Repr

/-- A nondeterministic automaton with transforms attached to its edges. -/
structure Automaton where
  states : States
  /-- The edges out of each state, in the order of preference. -/
  edges : Array (List Edge)
  /-- The transforms by number. -/
  transforms : Array Transform := #[]
  /-- The numbers of the attached transforms. -/
  attached : RankedMap (StateId × Symbol) TransformId := ∅
  /-- The numbers of the default transforms. -/
  defaults : RankedMap StateId TransformId := ∅

namespace Automaton

/-- The state in which reading begins. -/
def start : StateId := 0

/-- The state that forbids a symbol. -/
def reject : StateId := 1

/-- The automaton with the first two states and nothing else. -/
def empty : Automaton := { states := #[{}, {}], edges := #[[], []] }

/-- The number of states. -/
def size (a : Automaton) : Nat := a.states.size

/-- The number of edges. -/
def edgeCount (a : Automaton) : Nat := a.edges.foldl (fun n es => n + es.length) 0

/-- The edges out of a state; an unknown state has none. -/
def edgesOf (a : Automaton) (id : StateId) : List Edge := a.edges[id]?.getD []

/-- The state is final. -/
def isFinal (a : Automaton) (id : StateId) : Bool := a.states.isFinal id

/-- A transform by its number. -/
def transform? (a : Automaton) (id : TransformId) : Option Transform := a.transforms[id]?

/-- The transform attached to a state and a symbol. -/
def attached? (a : Automaton) (id : StateId) (symbol : Symbol) : Option TransformId :=
  a.attached[(id, symbol)]?

/-- The default transform of a state. -/
def default? (a : Automaton) (id : StateId) : Option TransformId := a.defaults[id]?

/-- The state can be left without reading. -/
def hasSilentEdge (a : Automaton) (id : StateId) : Bool :=
  (a.edgesOf id).any (·.symbol = .lambda)

/-- The state can be left by reading. -/
def hasReadingEdge (a : Automaton) (id : StateId) : Bool :=
  (a.edgesOf id).any (·.symbol ≠ .lambda)

/-- The states in which a symbol is forbidden. -/
def rejecting (a : Automaton) (symbol : Symbol) : List StateId :=
  (List.range a.edges.size).filter fun id => ⟨symbol, reject⟩ ∈ a.edgesOf id

/-- Adds a state; its number is the number of states before. -/
def addState (a : Automaton) (inTarget : Bool) : Automaton :=
  { a with states := a.states.create inTarget, edges := a.edges.push [] }

/-- Adds an edge unless it is there already. -/
def addEdge (a : Automaton) (id : StateId) (symbol : Symbol) (target : StateId) : Automaton :=
  { a with
    edges := a.edges.modify id fun es =>
      if ⟨symbol, target⟩ ∈ es then es else es ++ [⟨symbol, target⟩] }

/-- Adds an edge that reads nothing. -/
def addSilent (a : Automaton) (id target : StateId) : Automaton := a.addEdge id .lambda target

/-- Forbids a symbol in a state. -/
def addReject (a : Automaton) (id : StateId) (symbol : Symbol) : Automaton :=
  a.addEdge id symbol reject

/-- Makes a state final. -/
def setFinal (a : Automaton) (id : StateId) : Automaton :=
  { a with states := a.states.setFinal id true }

/-- Adds a transform; its number is the number of transforms before. -/
def addTransform (a : Automaton) (t : Transform) : Automaton :=
  { a with transforms := a.transforms.push t }

/-- The transform has a number in the automaton and is null, or is ordinary. -/
def isKind (a : Automaton) (null : Bool) (id : TransformId) : Bool :=
  (a.transform? id).any (·.isNull = null)

/-- Attaches a transform to a state and a symbol. An ordinary one takes the place of a null one;
otherwise the first one stays. Where one is attached already the two are compared, which takes two
transforms that the automaton has: a number without a transform is no argument of `attach` there,
and it changes nothing here. -/
def attach (a : Automaton) (id : StateId) (symbol : Symbol) (t : TransformId) : Automaton :=
  match a.attached? id symbol with
  | some old =>
    if a.isKind true old && a.isKind false t then
      { a with attached := a.attached.insert (id, symbol) t }
    else a
  | none => { a with attached := a.attached.insert (id, symbol) t }

/-- Gives a state a default transform unless it has one. -/
def attachDefault (a : Automaton) (id : StateId) (t : TransformId) : Automaton :=
  match a.default? id with
  | some _ => a
  | none => { a with defaults := a.defaults.insert id t }

end Automaton

end SoundChange
