import SoundChange.Automaton.Basic
import SoundChange.Automaton.Visit

/-!
# Accepting paths

Which way an automaton takes through a span of symbols. Edges are tried in the order in which they
were added, and the first way that ends in a final state is taken; no state is tried twice at the
same place. A state that forbids the symbol ahead is not left at all.

`Automaton.pendingAt_insert` is why the search ends.
-/

namespace SoundChange

/-- One edge of a path. -/
structure Step where
  source : StateId
  symbol : Symbol
  deriving DecidableEq, Repr

/-- A beginning of a path, its last step first: the state it has come to and the symbols left. In
all there are `limit` symbols. -/
structure Trail (limit : Nat) where
  steps : List Step
  state : StateId
  /-- How many symbols have been read. -/
  read : Nat
  rest : List Symbol
  read_add : read + rest.length = limit

namespace Trail

variable {limit : Nat}

/-- The trail after an edge, if the edge can be taken. -/
def follow (t : Trail limit) (e : Edge) : Option (Trail limit) :=
  if e.target = Automaton.reject then none
  else if e.symbol = .lambda then
    some ⟨⟨t.state, .lambda⟩ :: t.steps, e.target, t.read, t.rest, t.read_add⟩
  else
    match h : t.rest with
    | [] => none
    | s :: rest =>
      if e.symbol = s then
        some ⟨⟨t.state, s⟩ :: t.steps, e.target, t.read + 1, rest, by
          have := t.read_add
          rw [h, List.length_cons] at this
          omega⟩
      else none

/-- The state of a trail forbids the symbol ahead. -/
def isBarred (a : Automaton) (t : Trail limit) : Bool :=
  t.rest.head?.any fun s => ⟨s, Automaton.reject⟩ ∈ a.edgesOf t.state

/-- The trails that are one edge longer, in the order of preference. -/
def extensions (a : Automaton) (t : Trail limit) : List (Trail limit) :=
  if t.isBarred a then [] else (a.edgesOf t.state).filterMap t.follow

/-- The trail has read everything and ends in a final state. -/
def isAccepting (a : Automaton) (t : Trail limit) : Bool := t.rest.isEmpty && a.isFinal t.state

/-- The place of a trail: its state and how many symbols have been read. -/
def place (t : Trail limit) : StateId × Nat := (t.state, t.read)

end Trail

namespace Automaton

/-- All places of known states in a span of `limit` symbols. -/
def places (a : Automaton) (limit : Nat) : List (StateId × Nat) :=
  (List.range a.edges.size).flatMap fun id => (List.range (limit + 1)).map (id, ·)

/-- The number of edges out of places not visited yet. -/
def pendingAt (a : Automaton) (limit : Nat) (visited : RankedSet (StateId × Nat)) : Nat :=
  toCome (fun place => (a.edgesOf place.1).length) visited.contains (a.places limit)

theorem extensions_length {limit : Nat} (a : Automaton) (t : Trail limit) :
    (t.extensions a).length ≤ (a.edgesOf t.state).length := by
  unfold Trail.extensions
  split
  · exact Nat.zero_le _
  · exact List.length_filterMap_le ..

theorem edgesOf_eq_nil {a : Automaton} {id : StateId} (h : a.edges.size ≤ id) :
    a.edgesOf id = [] := by
  rw [edgesOf, Array.getElem?_eq_none h]
  rfl

/-- A visit takes the edges of its state out of those still to be followed. -/
theorem pendingAt_insert {limit : Nat} (a : Automaton) {t : Trail limit}
    {visited : RankedSet (StateId × Nat)} (h : t.place ∉ visited) :
    (t.extensions a).length + a.pendingAt limit (visited.insert t.place) ≤
      a.pendingAt limit visited := by
  have hle := a.extensions_length t
  have hmono (x : StateId × Nat) (hx : visited.contains x = true) :
      (visited.insert t.place).contains x = true := by simp [hx]
  by_cases hid : t.state < a.edges.size
  · have hmem : t.place ∈ a.places limit := by
      have := t.read_add
      simp only [places, Trail.place, List.mem_flatMap, List.mem_range, List.mem_map]
      exact ⟨t.state, hid, t.read, by omega, rfl⟩
    have := toCome_visit (fun place : StateId × Nat => (a.edgesOf place.1).length) hmono
      (Bool.eq_false_iff.mpr h) (by simp) hmem
    simp only [pendingAt, Trail.place] at *
    omega
  · rw [edgesOf_eq_nil (Nat.le_of_not_lt hid), List.length_nil] at hle
    have := toCome_le (fun place : StateId × Nat => (a.edgesOf place.1).length) hmono
      (a.places limit)
    simp only [pendingAt]
    omega

/-- The first accepting path that continues a trail of a stack, each trail tried with all its
continuations before the next one. -/
def search {limit : Nat} (a : Automaton) (visited : RankedSet (StateId × Nat)) :
    List (Trail limit) → Option (List Step)
  | [] => none
  | t :: stack =>
    if t.isAccepting a then some t.steps.reverse
    else if t.place ∈ visited then search a visited stack
    else search a (visited.insert t.place) (t.extensions a ++ stack)
termination_by stack => stack.length + a.pendingAt limit visited
decreasing_by
  · simp only [List.length_cons]
    omega
  · rename_i h
    have := a.pendingAt_insert h
    simp only [List.length_append, List.length_cons]
    omega

/-- The path that the automaton takes through a span of symbols. -/
def acceptingPath (a : Automaton) (span : List Symbol) : Option (List Step) :=
  a.search ∅ [(⟨[], start, 0, span, Nat.zero_add _⟩ : Trail span.length)]

end Automaton

end SoundChange
