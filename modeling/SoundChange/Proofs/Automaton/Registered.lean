import SoundChange.Proofs.Automaton.View

/-!
# Registered transforms

An automaton attaches transforms by their numbers, which can be any. `Automaton.Registered` says
that it has a transform for every number that it attaches; every operation keeps this if it attaches
only numbers that there are.
-/

namespace SoundChange.Automaton

variable {a : Automaton} {s t : StateId} {c : Symbol} {n : TransformId}

/-- Every number that is attached to an edge or to a state is the number of a transform. -/
structure Registered (a : Automaton) : Prop where
  lt_of_attached {s : StateId} {c : Symbol} {n : TransformId} :
    a.attached? s c = some n → n < a.transforms.size
  lt_of_default {s : StateId} {n : TransformId} : a.default? s = some n → n < a.transforms.size

theorem registered_empty : Registered .empty where
  lt_of_attached h := by simp [attached?, empty] at h
  lt_of_default h := by simp [default?, empty] at h

namespace Registered

theorem exists_transform (h : a.Registered) (hn : a.attached? s c = some n) :
    ∃ t, a.transform? n = some t :=
  ⟨_, Array.getElem?_eq_getElem (h.lt_of_attached hn)⟩

theorem addState (h : a.Registered) (inTarget : Bool) : (a.addState inTarget).Registered :=
  ⟨h.lt_of_attached, h.lt_of_default⟩

theorem addEdge (h : a.Registered) : (a.addEdge s c t).Registered :=
  ⟨h.lt_of_attached, h.lt_of_default⟩

theorem setFinal (h : a.Registered) : (a.setFinal s).Registered :=
  ⟨h.lt_of_attached, h.lt_of_default⟩

theorem addTransform (h : a.Registered) (u : Transform) : (a.addTransform u).Registered := by
  have hlt {n : TransformId} (hn : n < a.transforms.size) :
      n < (a.addTransform u).transforms.size := by
    rw [Automaton.addTransform, Array.size_push]
    exact Nat.lt_succ_of_lt hn
  exact ⟨fun hn => hlt (h.lt_of_attached hn), fun hn => hlt (h.lt_of_default hn)⟩

@[simp] theorem transforms_attach : (a.attach s c n).transforms = a.transforms := by
  unfold Automaton.attach
  split
  · split <;> rfl
  · rfl

@[simp] theorem transforms_attachDefault :
    (a.attachDefault s n).transforms = a.transforms := by
  unfold Automaton.attachDefault
  split <;> rfl

/-- Whether the number takes the place of another one, is the first, or is not attached at all. -/
theorem attach (h : a.Registered) (hn : n < a.transforms.size) :
    (a.attach s c n).Registered := by
  have hinsert : Registered { a with attached := a.attached.insert (s, c) n } := by
    refine ⟨fun {x d m} hm => ?_, h.lt_of_default⟩
    rw [attached?, Std.TreeMap.getElem?_insert] at hm
    split at hm
    · cases hm
      exact hn
    · exact h.lt_of_attached hm
  unfold Automaton.attach
  split
  · split
    · exact hinsert
    · exact h
  · exact hinsert

theorem attachDefault (h : a.Registered) (hn : n < a.transforms.size) :
    (a.attachDefault s n).Registered := by
  unfold Automaton.attachDefault
  split
  · exact h
  · refine ⟨h.lt_of_attached, fun {x m} hm => ?_⟩
    rw [default?, Std.TreeMap.getElem?_insert] at hm
    split at hm
    · cases hm
      exact hn
    · exact h.lt_of_default hm

end Registered

end SoundChange.Automaton
