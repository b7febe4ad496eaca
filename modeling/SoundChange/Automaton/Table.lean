import SoundChange.Automaton.Closure
import SoundChange.Automaton.MergeRegister

/-!
# Tables

The deterministic table of an automaton. Each of its states stands for a set of states of the
automaton, closed under silent edges; the states are listed in the order in which they are found,
breadth first and by ascending symbols. A state of the table takes over the transforms of its
members, the lower-numbered members first. Where two different ones are to be compared and the
automaton does not have both, no table is made (`Table.Failure.unknownTransform`).

`Found` carries the bound on the number of states, so that `Table.explore` comes to an end.
-/

namespace SoundChange

/-- A state of a table: the set it stands for, where it leads, and its transforms. -/
structure Row where
  id : StateId
  members : List StateId
  isFinal : Bool
  moves : List (Symbol × StateId)
  attached : List (Symbol × TransformId)
  default : Option TransformId
  /-- How many transforms of members were passed over for a different one. -/
  conflicts : Nat
  deriving DecidableEq, Repr

/-- The rows by the states that they describe. -/
def Row.index (rows : List Row) : RankedMap StateId Row :=
  .ofList (rows.map fun r => (r.id, r)) Ranked.ordering

/-- A deterministic table and the automaton that it was made from. -/
structure Table where
  automaton : Automaton
  start : StateId
  /-- The states in the order in which they were found. -/
  rows : List Row
  register : MergeRegister
  /-- The states by number. -/
  index : RankedMap StateId Row := Row.index rows
  index_eq : index = Row.index rows := by rfl

namespace Automaton

/-- The states to which the edges out of some states lead, by symbol. -/
def targets (a : Automaton) (members : List StateId) : RankedMap Symbol (List StateId) :=
  .group ((members.flatMap a.edgesOf).map fun e => (e.symbol, e.target))

/-- The transforms that the edges out of some states offer, by symbol and in order. -/
def offers (a : Automaton) (members : List StateId) : RankedMap Symbol (List TransformId) :=
  .group (members.flatMap fun id => (a.edgesOf id).filterMap fun e =>
    (a.attached? id e.symbol).map (e.symbol, ·))

/-- Takes up an offered transform: an ordinary one takes the place of a null one, and two ordinary
ones that write different texts are a conflict. Two that are different cannot be compared if one of
them is not known. -/
def takeUp (a : Automaton) (chosen : Option TransformId × Nat) (offered : TransformId) :
    Option (Option TransformId × Nat) :=
  match chosen.1 with
  | none => some (some offered, chosen.2)
  | some old =>
    if old = offered then some chosen
    else
      match a.transform? old, a.transform? offered with
      | some t, some u =>
        if t.isNull then some (if u.isNull then chosen else (some offered, chosen.2))
        else if u.isNull || t.replacement = u.replacement then some chosen
        else some (chosen.1, chosen.2 + 1)
      | _, _ => none

/-- The transform chosen among those offered, and the number of conflicts. -/
def choose (a : Automaton) (offered : List TransformId) : Option (Option TransformId × Nat) :=
  offered.foldlM a.takeUp (none, 0)

/-- What is chosen among the transforms of some states: for each symbol of their edges, and among
their defaults. -/
def chooseAll (a : Automaton) (members : List StateId) :
    Option (List (Symbol × Option TransformId × Nat) × Option TransformId × Nat) := do
  let chosen ← (a.offers members).toList.mapM fun p => (a.choose p.2).map (p.1, ·)
  let default ← a.choose (members.filterMap a.default?)
  return (chosen, default)

/-- The row of a set of states that leads where `moves` says, if their transforms can be
compared. -/
def row (a : Automaton) (id : StateId) (members : List StateId) (moves : List (Symbol × StateId)) :
    Option Row :=
  (a.chooseAll members).map fun (chosen, default) =>
    { id, members, moves
      isFinal := members.any a.isFinal
      attached := chosen.filterMap fun p => p.2.1.map (p.1, ·)
      default := default.1
      conflicts := chosen.foldl (fun n p => n + p.2.2) default.2 }

end Automaton

/-- The states of a table found so far, in order, and how many there may be. -/
structure Found (limit : Nat) where
  states : Array StateId := #[]
  /-- The same states, for looking up. -/
  known : RankedSet StateId := ∅
  size_le : states.size ≤ limit := by simp
  mem_known : ∀ id, id ∈ known ↔ id ∈ states := by simp

/-- Takes note of a state, unless there are too many. -/
def Found.add {limit : Nat} (f : Found limit) (id : StateId) :
    Except AutomatonError (Found limit) :=
  if id ∈ f.known then .ok f
  else if h : f.states.size < limit then
    .ok
      { states := f.states.push id
        known := f.known.insert id
        size_le := by rw [Array.size_push]; omega
        mem_known := fun other => by
          rw [Std.TreeSet.mem_insert, Std.LawfulEqCmp.compare_eq_iff_eq, f.mem_known,
            Array.mem_push, or_comm, eq_comm] }
  else .error (.stateLimit limit)

namespace Table

/-- Why no table is made. -/
inductive Failure where
  | automaton (error : AutomatonError)
  /-- One of two different transforms that are to be compared is not known. -/
  | unknownTransform
  deriving DecidableEq, Repr

variable {limit : Nat}

/-- Takes note of the state that stands for an ascending list of states. If it is new, its members'
transforms must be comparable. -/
def enter (a : Automaton) (register : MergeRegister) (found : Found limit) (set : List StateId) :
    Except Failure (StateId × MergeRegister × Found limit) :=
  match register.mergeSorted set with
  | .ok (merge, register) =>
    match found.add merge.id with
    | .ok later =>
      if merge.id ∈ found.known ∨ (a.chooseAll set).isSome then .ok (merge.id, register, later)
      else .error .unknownTransform
    | .error e => .error (.automaton e)
  | .error e => .error (.automaton e)

/-- Where a state leads for each of some symbols, given the targets of its members' edges. -/
def moves (a : Automaton) (silent : Automaton.SilentTargets) (register : MergeRegister)
    (found : Found limit) : List (Symbol × List StateId) →
      Except Failure (List (Symbol × StateId) × MergeRegister × Found limit)
  | [] => .ok ([], register, found)
  | (symbol, targets) :: rest =>
    let set := if symbol = .lambda then [] else a.closureAlong silent targets
    if set.isEmpty then moves a silent register found rest
    else
      match enter a register found set with
      | .ok (id, register, found) =>
        match moves a silent register found rest with
        | .ok (later, register, found) => .ok ((symbol, id) :: later, register, found)
        | .error e => .error e
      | .error e => .error e

/-- Goes through the states found that have no row yet. -/
def explore (a : Automaton) (silent : Automaton.SilentTargets) (rows : Array Row)
    (register : MergeRegister) (found : Found limit) :
    Except Failure (List Row × MergeRegister) :=
  match _h : found.states[rows.size]? with
  | none => .ok (rows.toList, register)
  | some id =>
    let members := register.members id
    match moves a silent register found (a.targets members).toList with
    | .ok (moves, register, later) =>
      match a.row id members moves with
      | some row => explore a silent (rows.push row) register later
      | none => .error .unknownTransform
    | .error e => .error e
termination_by limit - rows.size
decreasing_by
  have hlt := (Array.getElem?_eq_some_iff.mp _h).1
  have hle := found.size_le
  rw [Array.size_push]
  omega

/-- The table of an automaton whose start leads nowhere. -/
def deadEnd (a : Automaton) : Table :=
  { automaton := a
    start := Automaton.start
    rows := [⟨Automaton.start, [Automaton.start], false, [], [], none, 0⟩]
    register := { first := a.size } }

/-- The table of an automaton, with at most `limit` states. -/
def determinize (a : Automaton) (limit : Nat) : Except Failure Table :=
  let set := a.closure [Automaton.start]
  if set.isEmpty then .ok (deadEnd a)
  else
    match enter a { first := a.size } ({} : Found limit) set with
    | .ok (start, register, found) =>
      match explore a a.silentTargets #[] register found with
      | .ok (rows, register) => .ok { automaton := a, start, rows, register }
      | .error e => .error e
    | .error e => .error e

/-- The table of an automaton that has all the transforms that it attaches, as that of a rule has.
Then none is unknown, and what stands here for that failure is never given. -/
def ofAutomaton (a : Automaton) (limit : Nat) : Except AutomatonError Table :=
  match determinize a limit with
  | .ok t => .ok t
  | .error (.automaton e) => .error e
  | .error .unknownTransform => .error .emptyMerge

/-- The row of a state. -/
def row? (t : Table) (id : StateId) : Option Row := t.index[id]?

/-- The state to which a symbol leads. -/
def next (t : Table) (id : StateId) (symbol : Symbol) : Option StateId :=
  (t.row? id).bind fun r => r.moves.lookup symbol

/-- The state is final. -/
def isFinal (t : Table) (id : StateId) : Bool := (t.row? id).any Row.isFinal

/-- The number of states. -/
def size (t : Table) : Nat := t.rows.length

/-- The number of transforms passed over for a different one. -/
def conflicts (t : Table) : Nat := t.rows.foldl (fun n r => n + r.conflicts) 0

end Table

end SoundChange
