import SoundChange.Proofs.Automaton.Run
import Mathlib.Data.List.Sort

/-!
# Closures are exact

`reach` goes through a graph with a stack; what it must not lose are the edges out of the states
that it has found. The invariant is that each of these leads to a state that is found, or on the
stack, or unknown (`mem_reach_of_mem_stack`, `mem_reach_of_edge`).

* `mem_closure`: the closure of some states holds the states that matter among those reached from
  them without reading;
* `closure_pairwise`: in ascending order;
* `closure_closure`: the states that were left out are not missed when the search goes on from
  those that were kept.
-/

namespace SoundChange

theorem before_nat {m n : Nat} : Ranked.before m n = true ↔ m < n := by
  rw [Ranked.before_iff]
  exact Nat.compare_eq_lt

namespace Automaton

variable {a : Automaton} {s t : StateId} {seeds seeds' : List StateId}

theorem mem_silentTargets : t ∈ a.silentTargets[s]?.getD [] ↔ a.Passes s t := by
  rw [silentTargets, Array.getElem?_map, Passes, edgesOf]
  cases a.edges[s]? with
  | none => simp
  | some es =>
    simp only [Option.map_some, Option.getD_some, List.mem_filterMap, Option.ite_none_right_eq_some,
      Option.some.injEq]
    constructor
    · rintro ⟨⟨symbol, target⟩, he, rfl, rfl⟩
      exact he
    · exact fun he => ⟨_, he, rfl, rfl⟩

section Reach

variable {silent : SilentTargets} {fresh : Array Bool} {found stack : List StateId}

/-- What is found has been found before or is reached from the stack. -/
theorem mem_or_reachable_of_mem_reach (h : s ∈ reach a.silentTargets fresh found stack) :
    s ∈ found ∨ ∃ r ∈ stack, Relation.ReflTransGen a.Passes r s := by
  generalize hsilent : a.silentTargets = silent at h
  induction fresh, found, stack using reach.induct silent with
  | case1 fresh found =>
    rw [reach] at h
    exact .inl h
  | case2 fresh found id stack hid ih =>
    rw [reach, if_pos hid] at h
    rcases ih h with hs | ⟨r, hr, hs⟩
    · rcases List.mem_cons.mp hs with rfl | hs
      · exact .inr ⟨s, List.mem_cons_self .., .refl⟩
      · exact .inl hs
    · rcases List.mem_append.mp hr with hr | hr
      · rw [← hsilent] at hr
        exact .inr ⟨id, List.mem_cons_self .., .head (mem_silentTargets.mp hr) hs⟩
      · exact .inr ⟨r, List.mem_cons_of_mem _ hr, hs⟩
  | case3 fresh found id stack hid ih =>
    rw [reach, if_neg hid] at h
    refine (ih h).imp_right ?_
    rintro ⟨r, hr, hs⟩
    exact ⟨r, List.mem_cons_of_mem _ hr, hs⟩

theorem mem_reach_of_mem_found (h : s ∈ found) : s ∈ reach silent fresh found stack := by
  induction fresh, found, stack using reach.induct silent with
  | case1 fresh found => rwa [reach]
  | case2 fresh found id stack hid ih =>
    rw [reach, if_pos hid]
    exact ih (List.mem_cons_of_mem _ h)
  | case3 fresh found id stack hid ih =>
    rw [reach, if_neg hid]
    exact ih h

/-- A state is marked as fresh if it is known and not found yet. -/
def MarksFresh (size : Nat) (fresh : Array Bool) (found : List StateId) : Prop :=
  ∀ id, isFresh fresh id = true ↔ id < size ∧ id ∉ found

theorem MarksFresh.visit {size : Nat} (h : MarksFresh size fresh found) :
    MarksFresh size (visit fresh s) (s :: found) := by
  intro id
  rw [isFresh_visit, Bool.and_eq_true, h id, decide_eq_true_eq, List.mem_cons]
  grind

/-- A known state on the stack is found. -/
theorem mem_reach_of_mem_stack {size : Nat} (hfresh : MarksFresh size fresh found) (hs : s < size)
    (h : s ∈ stack) : s ∈ reach silent fresh found stack := by
  induction fresh, found, stack using reach.induct silent with
  | case1 => cases h
  | case2 fresh found id stack hid ih =>
    rw [reach, if_pos hid]
    rcases List.mem_cons.mp h with rfl | h
    · exact mem_reach_of_mem_found (List.mem_cons_self ..)
    · exact ih hfresh.visit (List.mem_append_right _ h)
  | case3 fresh found id stack hid ih =>
    rw [reach, if_neg hid]
    rcases List.mem_cons.mp h with rfl | h
    · rw [hfresh s, not_and, not_not] at hid
      exact mem_reach_of_mem_found (hid hs)
    · exact ih hfresh h

/-- The known states to which found states lead are found, if at the beginning they are found or
on the stack. -/
theorem mem_reach_of_edge {size : Nat} (hfresh : MarksFresh size fresh found)
    (hopen : ∀ r ∈ found, ∀ t ∈ silent[r]?.getD [], t < size → t ∈ found ∨ t ∈ stack)
    (h : s ∈ reach silent fresh found stack) (ht : t ∈ silent[s]?.getD []) (hsize : t < size) :
    t ∈ reach silent fresh found stack := by
  induction fresh, found, stack using reach.induct silent with
  | case1 fresh found =>
    rw [reach] at h ⊢
    exact (hopen s h t ht hsize).resolve_right List.not_mem_nil
  | case2 fresh found id stack hid ih =>
    rw [reach, if_pos hid] at h ⊢
    refine ih hfresh.visit (fun r hr t ht hsize => ?_) h
    rcases List.mem_cons.mp hr with rfl | hr
    · exact .inr (List.mem_append_left _ ht)
    · have := hopen r hr t ht hsize
      grind
  | case3 fresh found id stack hid ih =>
    rw [reach, if_neg hid] at h ⊢
    refine ih hfresh (fun r hr t ht hsize => ?_) h
    have := hopen r hr t ht hsize
    rw [hfresh id, not_and, not_not] at hid
    grind

end Reach

/-- All known states that are reached from the seeds are found. -/
theorem mem_reach_of_reachable (h : a.edges.size = a.size) (hs : s ∈ seeds)
    (hpath : Relation.ReflTransGen a.Passes s t) (ht : t < a.size) :
    t ∈ reach a.silentTargets (Array.replicate a.size true) [] seeds := by
  have hfresh : MarksFresh a.size (Array.replicate a.size true) [] := by
    intro id
    by_cases hid : id < a.size <;> simp [isFresh, hid]
  induction hpath with
  | refl => exact mem_reach_of_mem_stack hfresh ht hs
  | @tail p t _ hpt ih =>
    have hp : p < a.size := by
      refine Nat.lt_of_not_le fun hge => ?_
      rw [Passes, edgesOf_eq_nil (h ▸ hge)] at hpt
      cases hpt
    exact mem_reach_of_edge hfresh (fun _ hr => absurd hr List.not_mem_nil) (ih hp)
      (mem_silentTargets.mpr hpt) ht

/-- The closure of some states holds the states that matter among those reached without reading. -/
theorem mem_closure (h : a.edges.size = a.size) : s ∈ a.closure seeds ↔
    a.matters s = true ∧ ∃ r ∈ seeds, a.Reads r [] s := by
  simp only [Reads.nil_iff, closure, closureAlong, ← SortedSet.mem_def, SortedSet.mem_ofList,
    List.mem_filter, and_comm (a := s ∈ _)]
  refine and_congr_right fun hs => ⟨fun hmem => ?_, ?_⟩
  · exact (mem_or_reachable_of_mem_reach hmem).resolve_left List.not_mem_nil
  · rintro ⟨r, hr, hpath⟩
    exact mem_reach_of_reachable h hr hpath (lt_size_of_matters h hs)

theorem closure_pairwise : (a.closure seeds).Pairwise (· < ·) :=
  (SortedSet.ofList _).ascending.imp before_nat.mp

/-! ## The laws of closures -/

theorem matters_iff : a.matters s = true ↔
    a.isFinal s = true ∨ ∃ e ∈ a.edgesOf s, e.symbol ≠ .lambda := by
  simp only [matters, hasReadingEdge, Bool.or_eq_true, List.any_eq_true, decide_eq_true_eq]

theorem closure_eq_of_mem_iff (h : ∀ s, s ∈ a.closure seeds ↔ s ∈ a.closure seeds') :
    a.closure seeds = a.closure seeds' :=
  closure_pairwise.eq_of_mem_iff closure_pairwise h

/-- The closure of a closure is the closure. A state that a closure leaves out has passed on what it
leads to, and a state that it keeps is reached from itself. -/
theorem closure_closure (h : a.edges.size = a.size) :
    a.closure (a.closure seeds) = a.closure seeds := by
  refine closure_eq_of_mem_iff fun s => ?_
  rw [mem_closure h]
  constructor
  · rintro ⟨hs, r, hr, hrs⟩
    obtain ⟨-, p, hp, hpr⟩ := (mem_closure h).mp hr
    exact (mem_closure h).mpr ⟨hs, p, hp, hpr.append hrs⟩
  · intro hs
    exact ⟨((mem_closure h).mp hs).1, s, hs, .refl a s⟩

/-- Closures hold what they should, whichever way the states that they begin with are listed. -/
structure ClosureLaws (a : Automaton) : Prop where
  /-- The closure of some states holds those that are reached from them along silent edges, and are
  final or can be left by reading. -/
  mem_iff : ∀ seeds s, s ∈ a.closure seeds ↔
    (a.isFinal s = true ∨ ∃ e ∈ a.edgesOf s, e.symbol ≠ .lambda) ∧
      ∃ r ∈ seeds, Relation.ReflTransGen a.Passes r s
  ascending : ∀ seeds, (a.closure seeds).Pairwise (· < ·)
  /-- Neither the order of the states nor how often they are listed makes a difference. -/
  eq_of_same : ∀ seeds seeds' : List StateId, (∀ s, s ∈ seeds ↔ s ∈ seeds') →
    a.closure seeds = a.closure seeds'
  mem_append : ∀ seeds seeds' s,
    s ∈ a.closure (seeds ++ seeds') ↔ s ∈ a.closure seeds ∨ s ∈ a.closure seeds'
  idempotent : ∀ seeds, a.closure (a.closure seeds) = a.closure seeds

/-- The closures of an automaton are exact. -/
theorem closureLaws_of_built (ha : a.Built) : a.ClosureLaws where
  mem_iff seeds s := by
    rw [mem_closure ha.size_edges, matters_iff]
    simp only [Reads.nil_iff]
  ascending _ := closure_pairwise
  eq_of_same seeds seeds' hsame := by
    refine closure_eq_of_mem_iff fun s => ?_
    simp only [mem_closure ha.size_edges, hsame]
  mem_append seeds seeds' s := by
    simp only [mem_closure ha.size_edges, List.mem_append, or_and_right, exists_or, and_or_left]
  idempotent _ := closure_closure ha.size_edges

/-- The start and another state pass to each other silently, and on to a third, which reads. -/
def silentDetour : Automaton :=
  empty
    |>.addState false |>.addState false
    |>.addSilent start 2 |>.addSilent 2 start |>.addSilent 2 3 |>.addEdge 3 (.char 'a') start

theorem silentDetour_built : silentDetour.Built :=
  .addEdge _ _ _ (.addEdge _ _ _ (.addEdge _ _ _ (.addEdge _ _ _
    (.addState _ (.addState _ .empty)))))

/-- Only the third state is kept, and from it alone nothing else is found. -/
theorem silentDetour_closureLaws :
    silentDetour.ClosureLaws ∧ silentDetour.closure [2, start, 2] = [3] ∧
      silentDetour.closure [3] = [3] := by
  have hlaws := closureLaws_of_built silentDetour_built
  have hstart : silentDetour.closure [start, 2] = [3] := by decide +kernel
  refine ⟨hlaws, ?_, ?_⟩
  · rw [← hstart]
    exact hlaws.eq_of_same _ _ (by simp [or_comm])
  · rw [← hstart, hlaws.idempotent]

end Automaton

end SoundChange
