import SoundChange.Automaton.Basic
import SoundChange.Automaton.Visit
import SoundChange.SortedSet

/-!
# Closures

The states that can be reached from some others without reading. The closure keeps those that matter
for what comes next: final states, and states that can be left by reading. The others have passed
on all they lead to.

`Automaton.pending_visit` is why the search ends: a state visited takes its own silent edges out of
those that are still to be followed.
-/

namespace SoundChange.Automaton

/-- For each state, the states to which its silent edges lead. -/
abbrev SilentTargets := Array (List StateId)

/-- The states to which silent edges lead. -/
def silentTargets (a : Automaton) : SilentTargets :=
  a.edges.map fun es => es.filterMap fun e => if e.symbol = .lambda then some e.target else none

/-- The state is marked as not visited yet; unknown states are not. -/
def isFresh (fresh : Array Bool) (id : StateId) : Bool := fresh[id]?.getD false

/-- Marks a state as visited. -/
def visit (fresh : Array Bool) (id : StateId) : Array Bool := fresh.setIfInBounds id false

/-- The number of silent edges out of states not visited yet. -/
def pending (silent : SilentTargets) (fresh : Array Bool) : Nat :=
  toCome (fun id => (silent[id]?.getD []).length) (!isFresh fresh ·) (List.range fresh.size)

theorem isFresh_visit (fresh : Array Bool) (id other : StateId) :
    isFresh (visit fresh id) other = (isFresh fresh other && other ≠ id) := by
  simp only [isFresh, visit, Array.getElem?_setIfInBounds]
  by_cases h : id = other
  · subst h
    by_cases hlt : id < fresh.size <;> simp [hlt]
  · simp [h, Ne.symm h]

/-- A visit takes the silent edges of the state out of those still to be followed. -/
theorem pending_visit (silent : SilentTargets) {fresh : Array Bool} {id : StateId}
    (h : isFresh fresh id = true) :
    (silent[id]?.getD []).length + pending silent (visit fresh id) ≤ pending silent fresh := by
  have hid : id < fresh.size := by
    cases hget : fresh[id]? with
    | none => simp [isFresh, hget] at h
    | some _ => exact (Array.getElem?_eq_some_iff.mp hget).1
  have hsize : (visit fresh id).size = fresh.size := Array.size_setIfInBounds
  rw [pending, pending, hsize]
  refine toCome_visit (fun id => (silent[id]?.getD []).length) (fun x hx => ?_) ?_ ?_
    (List.mem_range.mpr hid)
  · rw [Bool.not_eq_eq_eq_not, Bool.not_true] at hx
    rw [isFresh_visit, hx]
    rfl
  · rw [h]
    rfl
  · simp [isFresh_visit]

/-- The states found so far and all fresh ones reached without reading from those of a stack. -/
def reach (silent : SilentTargets) (fresh : Array Bool) (found : List StateId) :
    List StateId → List StateId
  | [] => found
  | id :: stack =>
    if isFresh fresh id then
      reach silent (visit fresh id) (id :: found) (silent[id]?.getD [] ++ stack)
    else reach silent fresh found stack
termination_by stack => stack.length + pending silent fresh
decreasing_by
  · rename_i h
    have := pending_visit silent h
    simp only [List.length_append, List.length_cons]
    omega
  · simp only [List.length_cons]
    omega

/-- The state is final or can be left by reading. -/
def matters (a : Automaton) (id : StateId) : Bool := a.isFinal id || a.hasReadingEdge id

/-- The states that matter among those reached along some silent edges, in order. -/
def closureAlong (a : Automaton) (silent : SilentTargets) (seeds : List StateId) : List StateId :=
  let reached := reach silent (Array.replicate a.size true) [] seeds
  (SortedSet.ofList (reached.filter a.matters)).toList

/-- The states that matter among those reached without reading, in order. -/
def closure (a : Automaton) (seeds : List StateId) : List StateId :=
  a.closureAlong a.silentTargets seeds

end SoundChange.Automaton
