import SoundChange.Automaton.MergeRegister

/-!
# What merged states stand for

`MergeRegister.Holds` relates a number to the set of states that it stands for: a state of the
automaton to itself alone, a merged state to its members. A number has one set and a set one number
(`Holds.members_eq`, `Holds.id_unique`), and later merges change neither (`Holds.mono`). The set
that is merged is held by the number that it gets (`holds_of_mergeSorted`).
-/

namespace SoundChange.MergeRegister

variable {r r' r'' : MergeRegister} {id id' : StateId} {set set' : List StateId} {m : Merge}

theorem places_iff_empty (set : List StateId) (n : Nat) :
    (∅ : RankedMap (List StateId) Nat)[set]? = some n ↔
      (#[] : Array (List StateId))[n]? = some set := by
  simp

/-- No set is merged yet. -/
def empty (first : StateId) : MergeRegister :=
  ⟨first, ∅, #[], places_iff_empty⟩

@[simp] theorem sets_empty {first : StateId} : (empty first).sets = #[] := rfl

/-- The number stands for the set. -/
inductive Holds (r : MergeRegister) : StateId → List StateId → Prop where
  | single {id : StateId} : id < r.first → Holds r id [id]
  | merged {n : Nat} {set : List StateId} :
      r.sets[n]? = some set → 2 ≤ set.length → Holds r (r.first + n) set

/-- The second register has all sets of the first, under the same numbers. -/
structure Extends (r r' : MergeRegister) : Prop where
  first_eq : r'.first = r.first
  sets_get : ∀ {n : Nat} {set : List StateId}, r.sets[n]? = some set → r'.sets[n]? = some set

theorem Extends.refl (r : MergeRegister) : r.Extends r := ⟨rfl, id⟩

theorem Extends.trans (h : r.Extends r') (h' : r'.Extends r'') : r.Extends r'' :=
  ⟨h'.first_eq.trans h.first_eq, fun hn => h'.sets_get (h.sets_get hn)⟩

theorem extends_add (h : r.places[set]? = none) : r.Extends (r.add set h) := by
  refine ⟨rfl, fun {n set'} hn => ?_⟩
  have hlt := (Array.getElem?_eq_some_iff.mp hn).1
  rw [add, Array.getElem?_push, if_neg (by omega)]
  exact hn

namespace Holds

theorem mono (h : r.Holds id set) (he : r.Extends r') : r'.Holds id set := by
  cases h with
  | single hid => exact .single (he.first_eq ▸ hid)
  | merged hn hlen =>
    rw [← he.first_eq]
    exact .merged (he.sets_get hn) hlen

theorem members_eq (h : r.Holds id set) : r.members id = set := by
  cases h with
  | single hid => rw [members, get?, if_neg (Nat.not_le.mpr hid), Option.getD_none]
  | merged hn _ =>
    rw [members, get?, if_pos (Nat.le_add_right ..), Nat.add_sub_cancel_left, hn, Option.getD_some]

theorem set_unique (h : r.Holds id set) (h' : r.Holds id set') : set = set' :=
  h.members_eq.symm.trans h'.members_eq

/-- A set has one number. -/
theorem id_unique (h : r.Holds id set) (h' : r.Holds id' set) : id = id' := by
  cases h with
  | single hid =>
    cases h' with
    | single => rfl
    | merged _ hlen => simp at hlen
  | merged hn hlen =>
    cases h' with
    | single => simp at hlen
    | merged hn' =>
      rw [← r.places_iff] at hn hn'
      rw [Option.some.inj (hn.symm.trans hn')]

/-- A single state is its own number. -/
theorem eq_of_single {s : StateId} (h : r.Holds id [s]) : id = s := by
  cases h with
  | single => rfl
  | merged _ hlen => simp at hlen

/-- The numbers of merged states are the later ones. -/
theorem first_le_iff (h : r.Holds id set) : r.first ≤ id ↔ 2 ≤ set.length := by
  cases h with
  | single hid => simp [hid]
  | merged _ hlen => simp [hlen]

theorem exists_place (h : r.Holds id set) (hlen : 2 ≤ set.length) :
    ∃ n < r.size, r.first + n = id := by
  cases h with
  | single => simp at hlen
  | merged hn _ => exact ⟨_, (Array.getElem?_eq_some_iff.mp hn).1, rfl⟩

end Holds

/-! ## What a merge does -/

/-- No set is refused but the empty one. A single state stands for itself, and a larger set has its
number or gets the next one. -/
theorem mergeSorted_cases (r : MergeRegister) (set : List StateId) :
    (set = [] ∧ r.mergeSorted set = .error .emptyMerge) ∨
    (∃ id, set = [id] ∧ r.mergeSorted set = .ok (.single id, r)) ∨
    (2 ≤ set.length ∧ ∃ n, r.sets[n]? = some set ∧
      r.mergeSorted set = .ok (.existing (r.first + n), r)) ∨
    2 ≤ set.length ∧ ∃ h : r.places[set]? = none,
      r.mergeSorted set = .ok (.created (r.first + r.size), r.add set h) := by
  match set with
  | [] => exact .inl ⟨rfl, rfl⟩
  | [id] => exact .inr (.inl ⟨id, rfl, rfl⟩)
  | s :: t :: rest =>
    have hlen : 2 ≤ (s :: t :: rest).length := by simp
    rw [mergeSorted.eq_3 _ _ (by simp) (by simp)]
    split
    · rename_i n hn
      exact .inr (.inr (.inl ⟨hlen, n, (r.places_iff _ n).mp hn, rfl⟩))
    · rename_i hn
      exact .inr (.inr (.inr ⟨hlen, hn, rfl⟩))

theorem exists_mergeSorted (r : MergeRegister) (hset : set ≠ []) :
    ∃ m r', r.mergeSorted set = .ok (m, r') := by
  obtain ⟨hnil, -⟩ | ⟨id, -, h⟩ | ⟨-, n, -, h⟩ | ⟨-, _, h⟩ := r.mergeSorted_cases set
  · exact absurd hnil hset
  · exact ⟨_, _, h⟩
  · exact ⟨_, _, h⟩
  · exact ⟨_, _, h⟩

/-- A set that is merged is held by its number, and the sets merged before keep theirs. -/
theorem holds_of_mergeSorted (hset : ∀ s ∈ set, s < r.first)
    (h : r.mergeSorted set = .ok (m, r')) : r.Extends r' ∧ r'.Holds m.id set := by
  obtain ⟨-, heq⟩ | ⟨id, rfl, heq⟩ | ⟨hlen, n, hn, heq⟩ | ⟨hlen, hnew, heq⟩ :=
    r.mergeSorted_cases set <;> cases heq.symm.trans h
  · exact ⟨.refl r, .single (hset id (List.mem_singleton_self id))⟩
  · exact ⟨.refl r, .merged hn hlen⟩
  · refine ⟨extends_add hnew, .merged ?_ hlen⟩
    rw [add, size, Array.getElem?_push, if_pos rfl]

/-- After a merge, each set was there before or is the one that was merged. -/
theorem sets_of_mergeSorted {n : Nat} (h : r.mergeSorted set = .ok (m, r'))
    (hn : r'.sets[n]? = some set') : r.sets[n]? = some set' ∨ m.id = r'.first + n := by
  obtain ⟨-, heq⟩ | ⟨id, -, heq⟩ | ⟨-, k, -, heq⟩ | ⟨-, hnew, heq⟩ :=
    r.mergeSorted_cases set <;> cases heq.symm.trans h
  · exact .inl hn
  · exact .inl hn
  · rw [add, Array.getElem?_push] at hn
    split at hn
    · rename_i hlast
      exact .inr (by rw [hlast]; rfl)
    · exact .inl hn

end SoundChange.MergeRegister
