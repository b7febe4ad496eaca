/-!
# States

States are numbered in the order in which they are created. A state can be final, and it knows
whether it was created for the target of a rule.
-/

namespace SoundChange

/-- The number of a state. -/
abbrev StateId := Nat

/-- What is known of a state beside its number. -/
structure State where
  isFinal : Bool := false
  inTarget : Bool := false
  deriving DecidableEq, Repr, Inhabited

/-- The states created so far, by number. -/
abbrev States := Array State

namespace States

/-- Creates a state; its number is the number of states before. -/
def create (s : States) (inTarget : Bool) : States := s.push { inTarget := inTarget }

/-- Makes a state final or not; unknown states are left out. -/
def setFinal (s : States) (id : StateId) (isFinal : Bool) : States :=
  s.modify id fun state => { state with isFinal }

/-- The state is known and final. -/
def isFinal (s : States) (id : StateId) : Bool := s[id]?.any State.isFinal

end States

end SoundChange
