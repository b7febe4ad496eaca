import SoundChange.Application.Path
import SoundChange.Automaton.Closure
import Mathlib.Logic.Relation
import Mathlib.Tactic.Common

/-!
# Runs of automata

What an automaton can read, without regard to how reading is carried out: a `Run` takes one edge
after the other and reads the symbols of those that are not silent. `Reads` forgets the edges, and
`reached` are the states in which a reading from the start can stop, as far as they matter.

* `Reads.append`, `Reads.split`: what is read one after the other;
* `mem_reached_concat`: one more symbol, which is the step of the subset construction;
* `Built`: the automata that the operations of this library make.
-/

namespace SoundChange.Automaton

variable {a : Automaton} {s t u : StateId} {steps : List Step} {v w : List Symbol} {c : Symbol}

/-- Taking some steps from one state to another, and the symbols that they read. -/
inductive Run (a : Automaton) : StateId → List Step → List Symbol → StateId → Prop where
  | stay (s : StateId) : Run a s [] [] s
  | silent {s t u : StateId} {steps : List Step} {w : List Symbol} :
      ⟨.lambda, t⟩ ∈ a.edgesOf s → Run a t steps w u → Run a s (⟨s, .lambda⟩ :: steps) w u
  | read {s t u : StateId} {steps : List Step} {c : Symbol} {w : List Symbol} :
      c ≠ .lambda → ⟨c, t⟩ ∈ a.edgesOf s → Run a t steps w u →
        Run a s (⟨s, c⟩ :: steps) (c :: w) u

/-- The second state can be reached from the first by reading some symbols. -/
def Reads (a : Automaton) (s : StateId) (w : List Symbol) (t : StateId) : Prop :=
  ∃ steps, a.Run s steps w t

/-- The states that matter among those reached from the start by reading some symbols. -/
def reached (a : Automaton) (w : List Symbol) : Set StateId :=
  {s | a.matters s = true ∧ a.Reads start w s}

/-- Some symbols can be read from a state up to a final one. -/
def Accepts (a : Automaton) (s : StateId) (w : List Symbol) : Prop :=
  ∃ t, a.Reads s w t ∧ a.isFinal t = true

/-- A silent edge leads from the first state to the second. -/
def Passes (a : Automaton) (s t : StateId) : Prop := ⟨.lambda, t⟩ ∈ a.edgesOf s

namespace Run

/-- A run goes on where another one ends. -/
theorem append {more : List Step} (h : a.Run s steps v t) (h' : a.Run t more w u) :
    a.Run s (steps ++ more) (v ++ w) u := by
  induction h with
  | stay => exact h'
  | silent he _ ih => exact .silent he (ih h')
  | read hc he _ ih => exact .read hc he (ih h')

theorem lambda_not_mem (h : a.Run s steps w t) : Symbol.lambda ∉ w := by
  induction h with
  | stay => exact List.not_mem_nil
  | silent _ _ ih => exact ih
  | read hc _ _ ih => exact List.not_mem_cons_of_ne_of_not_mem (Ne.symm hc) ih

end Run

namespace Reads

theorem refl (a : Automaton) (s : StateId) : a.Reads s [] s := ⟨[], .stay s⟩

theorem silent (he : a.Passes s t) (h : a.Reads t w u) : a.Reads s w u :=
  h.elim fun _ h => ⟨_, .silent he h⟩

theorem read (hc : c ≠ .lambda) (he : ⟨c, t⟩ ∈ a.edgesOf s) (h : a.Reads t w u) :
    a.Reads s (c :: w) u :=
  h.elim fun _ h => ⟨_, .read hc he h⟩

theorem append (h : a.Reads s v t) (h' : a.Reads t w u) : a.Reads s (v ++ w) u := by
  obtain ⟨_, h⟩ := h
  obtain ⟨_, h'⟩ := h'
  exact ⟨_, h.append h'⟩

/-- Reading nothing is passing along silent edges. -/
theorem nil_iff : a.Reads s [] t ↔ Relation.ReflTransGen a.Passes s t := by
  constructor
  · rintro ⟨steps, h⟩
    generalize hw : ([] : List Symbol) = w at h
    induction h with
    | stay => exact .refl
    | silent he _ ih => exact .head he (ih hw)
    | read => cases hw
  · intro h
    induction h using Relation.ReflTransGen.head_induction_on with
    | refl => exact refl a t
    | head he _ ih => exact ih.silent he

/-- The first symbol is read on some edge, before and after which nothing is read. -/
theorem cons_iff : a.Reads s (c :: w) u ↔
    c ≠ .lambda ∧ ∃ p q, a.Reads s [] p ∧ ⟨c, q⟩ ∈ a.edgesOf p ∧ a.Reads q w u := by
  constructor
  · rintro ⟨steps, h⟩
    generalize hw : c :: w = w' at h
    induction h with
    | stay => cases hw
    | silent he _ ih =>
      obtain ⟨hc, p, q, hp, hq, hu⟩ := ih hw
      exact ⟨hc, p, q, hp.silent he, hq, hu⟩
    | @read s t u steps c' w' hc he h ih =>
      cases hw
      exact ⟨hc, s, t, refl a s, he, _, h⟩
  · rintro ⟨hc, p, q, hp, hq, hu⟩
    exact hp.append (hu.read hc hq)

/-- What is read one after the other is read from a state in between. -/
theorem split (h : a.Reads s (v ++ w) u) : ∃ t, a.Reads s v t ∧ a.Reads t w u := by
  induction v generalizing s with
  | nil => exact ⟨s, refl a s, h⟩
  | cons c v ih =>
    obtain ⟨hc, p, q, hp, hq, h⟩ := cons_iff.mp h
    obtain ⟨t, ht, hu⟩ := ih h
    exact ⟨t, cons_iff.mpr ⟨hc, p, q, hp, hq, ht⟩, hu⟩

end Reads

/-- A state with an edge that reads matters. -/
theorem matters_of_mem_edgesOf (h : ⟨c, t⟩ ∈ a.edgesOf s) (hc : c ≠ .lambda) :
    a.matters s = true := by
  have : a.hasReadingEdge s = true := List.any_eq_true.mpr ⟨_, h, decide_eq_true hc⟩
  rw [matters, this, Bool.or_true]

theorem mem_reached :
    s ∈ a.reached w ↔ a.matters s = true ∧ a.Reads start w s := Iff.rfl

/-- After one more symbol, the states that matter are those passed to from its edges. -/
theorem mem_reached_concat (hc : c ≠ .lambda) : t ∈ a.reached (w ++ [c]) ↔
    a.matters t = true ∧ ∃ p ∈ a.reached w, ∃ q, ⟨c, q⟩ ∈ a.edgesOf p ∧ a.Reads q [] t := by
  refine and_congr_right fun _ => ⟨fun h => ?_, ?_⟩
  · obtain ⟨m, hm, h⟩ := h.split
    obtain ⟨-, p, q, hp, hq, ht⟩ := Reads.cons_iff.mp h
    refine ⟨p, ⟨matters_of_mem_edgesOf hq hc, ?_⟩, q, hq, ht⟩
    simpa using hm.append hp
  · rintro ⟨p, ⟨-, hp⟩, q, hq, ht⟩
    exact hp.append (ht.read hc hq)

/-! ## Automata made by the operations -/

/-- The automata that can be made from the empty one. -/
inductive Built : Automaton → Prop where
  | empty : Built .empty
  | addState {a : Automaton} (inTarget : Bool) : Built a → Built (a.addState inTarget)
  | addEdge {a : Automaton} (id : StateId) (symbol : Symbol) (target : StateId) :
      Built a → Built (a.addEdge id symbol target)
  | setFinal {a : Automaton} (id : StateId) : Built a → Built (a.setFinal id)
  | addTransform {a : Automaton} (t : Transform) : Built a → Built (a.addTransform t)
  | attach {a : Automaton} (id : StateId) (symbol : Symbol) (t : TransformId) :
      Built a → Built (a.attach id symbol t)
  | attachDefault {a : Automaton} (id : StateId) (t : TransformId) :
      Built a → Built (a.attachDefault id t)

/-- Every state has its list of edges, and only states have. -/
theorem Built.size_edges (h : Built a) : a.edges.size = a.size := by
  induction h with
  | empty => rfl
  | addState inTarget _ ih => simp [Automaton.addState, size, States.create, ← ih.symm]
  | addEdge id symbol target _ ih => simpa [Automaton.addEdge, size] using ih
  | setFinal id _ ih => simpa [Automaton.setFinal, size, States.setFinal] using ih
  | addTransform t _ ih => exact ih
  | attach id symbol t _ ih =>
    unfold Automaton.attach
    split
    · split <;> exact ih
    · exact ih
  | attachDefault id t _ ih =>
    unfold Automaton.attachDefault
    split <;> exact ih

/-- A state that matters is a known one. -/
theorem lt_size_of_matters (h : a.edges.size = a.size) (hs : a.matters s = true) : s < a.size := by
  rcases Nat.lt_or_ge s a.size with hlt | hge
  · exact hlt
  have hedges : a.edgesOf s = [] := edgesOf_eq_nil (h ▸ hge)
  have hfinal : a.isFinal s = false := by
    simp [isFinal, States.isFinal, Array.getElem?_eq_none (show a.states.size ≤ s from hge)]
  simp [matters, hasReadingEdge, hedges, hfinal] at hs

end SoundChange.Automaton
