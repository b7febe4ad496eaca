import SoundChange.Proofs.Automaton.Closure
import SoundChange.Proofs.Automaton.Register
import Mathlib.Data.Finset.Sort

/-!
# Histories of merges

A register is asked for the numbers of some sets, one after the other, and each set is given as a
list of its states, in any order and with any repetitions. Only the set itself counts (`merge_eq`).
The sets that a register holds are those of two or more states that it was asked for
(`sort_mem_sets_afterAll`), which tells a new set from one that is there already. Each number that
was given stands for its set from then on (`holds_of_mem_exchanges`), and new numbers are given in
order (`range_created`). So the numbers of a history stand one-to-one for the sets asked for
(`canonical_afterAll`).
-/

namespace SoundChange.MergeRegister

variable {r r' : MergeRegister} {first : StateId} {states : List StateId} {m : Merge}
  {requests : List (List StateId)} {set : Finset StateId}

/-- The register after a request, and the answer. The error of `merge` comes without a register: the
only set that is refused is the empty one, and it is refused before the register is asked for it. -/
def request (r : MergeRegister) (states : List StateId) :
    MergeRegister × Except AutomatonError Merge :=
  match r.merge states with
  | .ok (m, r) => (r, .ok m)
  | .error e => (r, .error e)

/-- The register after some requests, whether they fail or not. -/
def afterAll (r : MergeRegister) (requests : List (List StateId)) : MergeRegister :=
  requests.foldl (fun r states => (r.request states).1) r

/-- Some requests one after the other, each with its answer. -/
def exchanges (r : MergeRegister) :
    List (List StateId) → List (List StateId × Except AutomatonError Merge)
  | [] => []
  | states :: later => (states, (r.request states).2) :: (r.request states).1.exchanges later

/-- The number that an answer gives to a new set. -/
def created? : Except AutomatonError Merge → Option StateId
  | .ok (.created id) => some id
  | _ => none

/-! ## What a request does -/

theorem sort_inj {set' : Finset StateId} : set.sort = set'.sort ↔ set = set' :=
  ⟨fun h => by rw [← set.sort_toFinset (· ≤ ·), h, Finset.sort_toFinset], fun h => by rw [h]⟩

/-- A list is merged as the set of its states. -/
theorem merge_eq (r : MergeRegister) (states : List StateId) :
    r.merge states = r.mergeSorted states.toFinset.sort := by
  have hsorted := (SortedSet.ofList states).ascending.imp before_nat.mp
  refine congrArg r.mergeSorted
    (hsorted.eq_of_mem_iff states.toFinset.sortedLT_sort.pairwise fun s => ?_)
  rw [← SortedSet.mem_def, SortedSet.mem_ofList, Finset.mem_sort, List.mem_toFinset]

/-- No request is refused but an empty one. A single state stands for itself, and a larger set has
its number or gets the next one. -/
theorem request_cases (r : MergeRegister) (states : List StateId) :
    (states = [] ∧ r.request states = (r, .error .emptyMerge)) ∨
    (∃ id, states.toFinset = {id} ∧ r.request states = (r, .ok (.single id))) ∨
    (2 ≤ states.toFinset.card ∧ ∃ n, r.sets[n]? = some states.toFinset.sort ∧
      r.request states = (r, .ok (.existing (r.first + n)))) ∨
    2 ≤ states.toFinset.card ∧ ∃ h : r.places[states.toFinset.sort]? = none,
      r.request states = (r.add _ h, .ok (.created (r.first + r.size))) := by
  rw [request, merge_eq, ← states.toFinset.length_sort (· ≤ ·)]
  obtain ⟨hnil, h⟩ | ⟨id, hid, h⟩ | ⟨hlen, n, hn, h⟩ | ⟨hlen, hnew, h⟩ :=
    r.mergeSorted_cases states.toFinset.sort <;> rw [h]
  · refine .inl ⟨?_, rfl⟩
    rw [← Finset.sort_empty (· ≤ ·), sort_inj, List.toFinset_eq_empty_iff] at hnil
    exact hnil
  · rw [← Finset.sort_singleton (· ≤ ·) id, sort_inj] at hid
    exact .inr (.inl ⟨id, hid, rfl⟩)
  · exact .inr (.inr (.inl ⟨hlen, n, hn, rfl⟩))
  · exact .inr (.inr (.inr ⟨hlen, hnew, rfl⟩))

theorem extends_request (r : MergeRegister) (states : List StateId) :
    r.Extends (r.request states).1 := by
  obtain ⟨-, h⟩ | ⟨_, -, h⟩ | ⟨-, _, -, h⟩ | ⟨-, hnew, h⟩ := r.request_cases states <;> rw [h]
  · exact .refl r
  · exact .refl r
  · exact .refl r
  · exact extends_add hnew

/-- The number that a set gets stands for it. -/
theorem holds_of_request (hstates : ∀ s ∈ states, s < r.first)
    (h : (r.request states).2 = .ok m) :
    (r.request states).1.Holds m.id states.toFinset.sort := by
  rw [request, merge_eq] at h ⊢
  cases hm : r.mergeSorted states.toFinset.sort with
  | error e =>
    rw [hm] at h
    cases h
  | ok p =>
    rw [hm] at h
    cases h
    exact (holds_of_mergeSorted (fun s hs => hstates s (by simpa using hs)) hm).2

/-- A request adds its set if it has two or more states. -/
theorem sort_mem_sets_request : set.sort ∈ (r.request states).1.sets ↔
    set.sort ∈ r.sets ∨ 2 ≤ set.card ∧ states.toFinset = set := by
  obtain ⟨rfl, h⟩ | ⟨id, hid, h⟩ | ⟨hcard, n, hn, h⟩ | ⟨hcard, hnew, h⟩ :=
    r.request_cases states <;> rw [h]
  · refine (or_iff_left ?_).symm
    rintro ⟨hcard, rfl⟩
    simp at hcard
  · refine (or_iff_left ?_).symm
    rintro ⟨hcard, rfl⟩
    simp [hid] at hcard
  · refine (or_iff_left_of_imp ?_).symm
    rintro ⟨-, rfl⟩
    exact Array.mem_of_getElem? hn
  · rw [add, Array.mem_push, sort_inj, eq_comm (a := set)]
    refine or_congr_right ⟨?_, And.right⟩
    rintro rfl
    exact ⟨hcard, rfl⟩

/-- A number is given to a new set if and only if it is the next one. -/
theorem range_request (r : MergeRegister) (states : List StateId) :
    List.range' (r.request states).1.first (r.request states).1.size =
      List.range' r.first r.size ++ (created? (r.request states).2).toList := by
  obtain ⟨-, h⟩ | ⟨_, -, h⟩ | ⟨-, _, -, h⟩ | ⟨-, hnew, h⟩ := r.request_cases states <;> rw [h]
  · simp [created?]
  · simp [created?]
  · simp [created?]
  · simp [created?, add, size, List.range'_concat]

/-! ## What a history leaves behind -/

theorem extends_afterAll (r : MergeRegister) (requests : List (List StateId)) :
    r.Extends (r.afterAll requests) := by
  induction requests generalizing r with
  | nil => exact .refl r
  | cons states later ih => exact (r.extends_request states).trans (ih _)

theorem sort_mem_sets_afterAll : set.sort ∈ (r.afterAll requests).sets ↔
    set.sort ∈ r.sets ∨ 2 ≤ set.card ∧ ∃ states ∈ requests, states.toFinset = set := by
  induction requests generalizing r with
  | nil => simp [afterAll]
  | cons states later ih =>
    rw [afterAll, List.foldl_cons, ← afterAll, ih, sort_mem_sets_request]
    simp only [List.exists_mem_cons_iff, and_or_left, or_assoc]

/-- A number that was given stands for its set from then on. -/
theorem holds_of_mem_exchanges (hrequests : ∀ states ∈ requests, ∀ s ∈ states, s < r.first)
    (h : (states, .ok m) ∈ r.exchanges requests) :
    (r.afterAll requests).Holds m.id states.toFinset.sort := by
  induction requests generalizing r with
  | nil => cases h
  | cons first later ih =>
    rw [List.forall_mem_cons] at hrequests
    rcases List.mem_cons.mp h with h | h
    · obtain ⟨rfl, hm⟩ := Prod.mk.inj h
      exact (holds_of_request hrequests.1 hm.symm).mono (extends_afterAll _ later)
    · refine ih ?_ h
      rw [(r.extends_request first).first_eq]
      exact hrequests.2

/-- The numbers of new sets come one after the other. -/
theorem range_created (r : MergeRegister) (requests : List (List StateId)) :
    List.range' r.first r.size ++ (r.exchanges requests).filterMap (created? ·.2) =
      List.range' (r.afterAll requests).first (r.afterAll requests).size := by
  induction requests generalizing r with
  | nil => simp [exchanges, afterAll]
  | cons states later ih =>
    rw [afterAll, List.foldl_cons, ← afterAll, ← ih, range_request, exchanges, List.append_assoc]
    cases hcreated : created? (r.request states).2 <;> simp [hcreated]

/-! ## Numbers and sets -/

/-- How a register answers a request, by the requests before. -/
structure Answers (r : MergeRegister) (before : List (List StateId)) (states : List StateId) :
    Prop where
  fails_iff : (r.request states).2 = .error .emptyMerge ↔ states = []
  unchanged : ∀ e, (r.request states).2 = .error e → (r.request states).1 = r
  single_iff : ∀ id, (r.request states).2 = .ok (.single id) ↔ states.toFinset = {id}
  /-- A set of two or more states is new if no request before was for the same set. -/
  created_iff : (∃ id, (r.request states).2 = .ok (.created id)) ↔
    2 ≤ states.toFinset.card ∧ ∀ earlier ∈ before, earlier.toFinset ≠ states.toFinset
  existing_iff : (∃ id, (r.request states).2 = .ok (.existing id)) ↔
    2 ≤ states.toFinset.card ∧ ∃ earlier ∈ before, earlier.toFinset = states.toFinset

/-- The answer depends on the sets that the register holds. -/
theorem answers_of_sets {before : List (List StateId)}
    (hsets : ∀ set : Finset StateId,
      set.sort ∈ r.sets ↔ 2 ≤ set.card ∧ ∃ earlier ∈ before, earlier.toFinset = set)
    (states : List StateId) : r.Answers before states := by
  have hset := hsets states.toFinset
  have hnil (hcard : 1 ≤ states.toFinset.card) : states ≠ [] := by
    rintro rfl
    cases hcard
  have hsingle (hcard : 2 ≤ states.toFinset.card) (id : StateId) : states.toFinset ≠ {id} := by
    intro hid
    simp [hid] at hcard
  obtain ⟨rfl, h⟩ | ⟨id, hid, h⟩ | ⟨hcard, n, hn, h⟩ | ⟨hcard, hnew, h⟩ := r.request_cases states
  · constructor <;> simp [h, eq_comm]
  · have hne := hnil (by simp [hid])
    constructor <;> simp [h, hid, hne]
  · have hheld := hset.mp (Array.mem_of_getElem? hn)
    have hne := hnil (Nat.le_of_succ_le hcard)
    constructor
    · simp [h, hne]
    · simp [h]
    · simp [h, hsingle hcard]
    · simpa [h, hcard] using hheld.2
    · simpa [h] using hheld
  · have hnot : states.toFinset.sort ∉ r.sets := fun hmem => by
      obtain ⟨n, hn⟩ := Array.mem_iff_getElem?.mp hmem
      rw [← r.places_iff, hnew] at hn
      cases hn
    have hunheld := mt hset.mpr hnot
    have hne := hnil (Nat.le_of_succ_le hcard)
    constructor
    · simp [h, hne]
    · simp [h]
    · simp [h, hsingle hcard]
    · simpa [h, hcard] using hunheld
    · simpa [h] using hunheld

/-- The numbers of a history stand one-to-one for the sets that were asked for. -/
structure Canonical (first : StateId) (requests : List (List StateId)) : Prop where
  /-- Two requests get the same number if and only if they are for the same set. -/
  id_eq_iff : ∀ states m states' m',
    (states, .ok m) ∈ (empty first).exchanges requests →
    (states', .ok m') ∈ (empty first).exchanges requests →
      (m.id = m'.id ↔ states.toFinset = states'.toFinset)
  /-- A number stands for the states of its set, in ascending order. -/
  members_eq : ∀ states m, (states, .ok m) ∈ (empty first).exchanges requests →
    ((empty first).afterAll requests).members m.id = states.toFinset.sort
  /-- The numbers of new sets count up from the first one. -/
  created_eq : ((empty first).exchanges requests).filterMap (created? ·.2) =
    List.range' first ((empty first).afterAll requests).size
  /-- How the next request is answered. -/
  next : ∀ states, ((empty first).afterAll requests).Answers requests states

/-- Requests for sets of states below the first free number get canonical numbers. -/
theorem canonical_afterAll (h : ∀ states ∈ requests, ∀ s ∈ states, s < first) :
    Canonical first requests where
  id_eq_iff states m states' m' hm hm' := by
    have hholds := holds_of_mem_exchanges (r := empty first) h hm
    have hholds' := holds_of_mem_exchanges (r := empty first) h hm'
    rw [← sort_inj]
    constructor
    · intro hid
      rw [hid] at hholds
      exact hholds.set_unique hholds'
    · intro hset
      rw [hset] at hholds
      exact hholds.id_unique hholds'
  members_eq states m hm := (holds_of_mem_exchanges (r := empty first) h hm).members_eq
  created_eq := by
    have hrange := range_created (empty first) requests
    rwa [((empty first).extends_afterAll requests).first_eq] at hrange
  next := answers_of_sets fun set => by simp [sort_mem_sets_afterAll]

theorem canonical_afterAll_repeated :
    (∀ states ∈ [[3, 1, 2], [], [4, 4], [2, 3, 1], [1, 2]], ∀ s ∈ states, s < 10) ∧
      Canonical 10 [[3, 1, 2], [], [4, 4], [2, 3, 1], [1, 2]] :=
  ⟨by decide, canonical_afterAll (by decide)⟩

/-- The fourth list is the set of the first one again, the fifth is a new set. -/
example : ((empty 10).exchanges [[3, 1, 2], [], [4, 4], [2, 3, 1], [1, 2]]).map Prod.snd =
    [.ok (.created 10), .error .emptyMerge, .ok (.single 4), .ok (.existing 10),
      .ok (.created 11)] := by
  decide +kernel

end SoundChange.MergeRegister
