import SoundChange.Application.Output

/-!
# Single steps of the output

What letting go of held text leaves as it is, and which of its two readings a step has.
-/

namespace SoundChange.Output

variable {a : Automaton} {o : Output} {s : StateId} {c : Symbol} {t : Transform}

theorem release_of_held (h : o.held = []) : o.release a = o := if_pos h

theorem held_release : (o.release a).held = [] := by
  unfold release
  split
  · assumption
  · rfl

@[simp] theorem release_release : (o.release a).release a = o.release a :=
  release_of_held held_release

@[simp] theorem written_release : (o.release a).written = o.written := by
  unfold release
  split <;> rfl

@[simp] theorem position_release : (o.release a).position = o.position := by
  unfold release
  split <;> rfl

@[simp] theorem targetEnd_release : (o.release a).targetEnd = o.targetEnd := by
  unfold release
  split <;> rfl

/-- Held text is recorded as deleted if its transform is known. -/
theorem release_of_holder (hheld : o.held ≠ []) (ht : o.holder.bind a.transform? = some t) :
    o.release a = { o with
      changes := o.changes ++ [{ t.applied o.held with replacement := [] }]
      held := []
      holder := none } := by
  rw [release, if_neg hheld, ht]

@[simp] theorem position_switchUnit (unit : Nat) :
    (o.switchUnit a unit).position = o.position := by
  unfold switchUnit
  split
  · exact position_release
  · rfl

theorem textOf_eq (c : Symbol) : textOf c = Symbol.text [c] := by
  cases c <;> rfl

theorem step_silent : step a o ⟨s, .lambda⟩ = o.passSilently a s := rfl

theorem step_read (hc : c ≠ .lambda) : step a o ⟨s, c⟩ = o.readSymbol a s c := if_neg hc

theorem step_char (c : Char) : step a o ⟨s, .char c⟩ = o.readSymbol a s (.char c) :=
  step_read (fun h => Symbol.noConfusion h)

end SoundChange.Output
