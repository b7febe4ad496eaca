import SoundChange.Automaton.State
import SoundChange.Error
import SoundChange.SortedSet

/-!
# Merged states

A set of states is given a number, the same for the same set. A single state stands for itself; each
larger set gets the next free number when it is first asked for.
-/

namespace SoundChange

/-- How a set of states got its number. -/
inductive Merge where
  /-- The set has one state. -/
  | single (id : StateId)
  /-- The set was merged before. -/
  | existing (id : StateId)
  /-- The set is new. -/
  | created (id : StateId)
  deriving DecidableEq, Repr

/-- The number of the set. -/
def Merge.id : Merge → StateId
  | single id | existing id | created id => id

/-- The merged sets in the order of their numbers, which count up from `first`. -/
structure MergeRegister where
  first : StateId
  /-- Where each set stands. -/
  places : RankedMap (List StateId) Nat := ∅
  sets : Array (List StateId) := #[]
  places_iff : ∀ (set : List StateId) (n : Nat),
    places[set]? = some n ↔ sets[n]? = some set := by simp

namespace MergeRegister

/-- The members of a merged state. -/
def get? (r : MergeRegister) (id : StateId) : Option (List StateId) :=
  if r.first ≤ id then r.sets[id - r.first]? else none

/-- The states that a number stands for. -/
def members (r : MergeRegister) (id : StateId) : List StateId := (r.get? id).getD [id]

/-- The number of merged states. -/
def size (r : MergeRegister) : Nat := r.sets.size

/-- Adds a set that is not there yet. -/
def add (r : MergeRegister) (set : List StateId) (h : r.places[set]? = none) : MergeRegister :=
  { r with
    places := r.places.insert set r.sets.size
    sets := r.sets.push set
    places_iff := fun other n => by
      have hset (m : Nat) : r.sets[m]? ≠ some set := fun hm => by
        simp [(r.places_iff set m).mpr hm] at h
      rw [Std.TreeMap.getElem?_insert, Array.getElem?_push]
      simp only [Std.LawfulEqCmp.compare_eq_iff_eq]
      by_cases hother : set = other <;> by_cases hn : n = r.sets.size
      · simp [hother, hn]
      · subst hother
        simp [hn, hset, Ne.symm hn]
      · simp [hother, hn, r.places_iff]
      · simp [hother, hn, r.places_iff] }

/-- Gives a number to an ascending list of states. -/
def mergeSorted (r : MergeRegister) : List StateId → Except AutomatonError (Merge × MergeRegister)
  | [] => .error .emptyMerge
  | [id] => .ok (.single id, r)
  | set =>
    match h : r.places[set]? with
    | some n => .ok (.existing (r.first + n), r)
    | none => .ok (.created (r.first + r.sets.size), r.add set h)

/-- Gives a number to the set of some states. -/
def merge (r : MergeRegister) (states : List StateId) :
    Except AutomatonError (Merge × MergeRegister) :=
  r.mergeSorted (SortedSet.ofList states).toList

end MergeRegister

end SoundChange
