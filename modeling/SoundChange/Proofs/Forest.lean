import SoundChange.Trie
import Mathlib.Logic.Basic

/-!
# What a forest holds

`Forest.Has` is membership of a segment, without regard to the order of branches.
`Forest.WellFormed` is the shape that the forest of a trie has: the branches at a place ascend, and
one without branches below is the end of a segment.
-/

namespace SoundChange.Forest

variable {c : Char} {v : Text}

/-- The forest holds a segment. -/
def Has : Forest → Text → Prop
  | empty, _ => False
  | branch c isMember below beside, w =>
    (∃ v, w = c :: v ∧ (v = [] ∧ isMember = true ∨ Has below v)) ∨ Has beside w

/-- The branches at each place ascend, and each leads to the end of a segment. -/
def WellFormed : Forest → Prop
  | empty => True
  | branch c isMember below beside =>
    (below.isEmpty = true → isMember = true) ∧
      (∀ d ∈ beside.firstChars, Ranked.before c d = true) ∧ WellFormed below ∧ WellFormed beside

theorem not_has_nil : ∀ {t : Forest}, ¬ t.Has []
  | branch _ _ _ _, .inl ⟨_, h, _⟩ => nomatch h
  | branch _ _ _ _, .inr h => not_has_nil h

theorem mem_firstChars_of_has : ∀ {t : Forest}, t.Has (c :: v) → c ∈ t.firstChars
  | branch d isMember below beside, h => by
    rw [firstChars, List.mem_cons]
    rcases h with ⟨w, hw, -⟩ | h
    · exact .inl (List.cons.inj hw).1
    · exact .inr (mem_firstChars_of_has h)

theorem eq_empty_of_isEmpty : ∀ {t : Forest}, t.isEmpty = true → t = empty
  | empty, _ => rfl

/-- Every branch leads to the end of a segment. -/
theorem WellFormed.exists_has : ∀ {t : Forest}, t.WellFormed → ∀ {c : Char}, c ∈ t.firstChars →
    ∃ v, t.Has (c :: v)
  | branch d isMember below beside, ⟨hmember, _, hbelow, hbeside⟩, c, hc => by
    rcases List.mem_cons.mp hc with rfl | hc
    · cases below with
      | empty => exact ⟨[], .inl ⟨[], rfl, .inl ⟨rfl, hmember rfl⟩⟩⟩
      | branch e _ _ _ =>
        obtain ⟨v, hv⟩ := hbelow.exists_has (List.mem_cons_self ..)
        exact ⟨e :: v, .inl ⟨_, rfl, .inr hv⟩⟩
    · obtain ⟨v, hv⟩ := hbeside.exists_has hc
      exact ⟨v, .inr hv⟩

end SoundChange.Forest
