import SoundChange.Proofs.Automaton.Choice
import SoundChange.Proofs.Automaton.Subset

/-!
# The states of a table are discovered once

Exploring starts from the closure of the start and enters every closure that a symbol leads to from
one entered before. `Automaton.Arises` names those closures without regard to how they are found.

`Discovers` is the invariant of the search: each state found stands for a closure that arises, and
no set is merged whose state is not found. `Surveyed` collects all that is known after some rounds;
every round keeps it (`Surveyed.kept`), so it holds of a finished table
(`surveyed_of_determinize`). That makes the table canonical (`canonical_of_ofAutomaton`).
-/

namespace SoundChange

namespace Automaton

variable {a : Automaton} {s : StateId} {set : List StateId}

/-- The closure is that of the start, or a symbol leads to it from one that arises. -/
inductive Arises (a : Automaton) : List StateId → Prop where
  | start : a.closure [start] ≠ [] → Arises a (a.closure [start])
  | next {set : List StateId} {c : Symbol} :
      Arises a set → c ≠ .lambda → a.successors set c ≠ [] → Arises a (a.successors set c)

theorem Arises.isClosure (h : a.Arises set) : a.IsClosure set := by
  cases h with
  | start hne => exact ⟨hne, _, rfl⟩
  | next _ _ hne => exact ⟨hne, _, rfl⟩

/-- A closure that arises is what some symbols reach. -/
theorem Arises.exists_reached (hsize : a.edges.size = a.size) (h : a.Arises set) :
    ∃ w, .lambda ∉ w ∧ ∀ s, s ∈ set ↔ s ∈ a.reached w := by
  induction h with
  | start => exact ⟨[], List.not_mem_nil, fun s => (mem_reached_nil hsize).symm⟩
  | @next set c _ hc _ ih =>
    obtain ⟨w, hw, hset⟩ := ih
    refine ⟨w ++ [c], by simp [hw, Ne.symm hc], fun s => ?_⟩
    rw [mem_successors hsize, mem_reached_concat hc]
    simp only [hset]

theorem IsClosure.pairwise (h : a.IsClosure set) : set.Pairwise (· < ·) := by
  obtain ⟨-, seeds, rfl⟩ := h
  exact closure_pairwise

/-- Closures with the same states are equal. -/
theorem IsClosure.ext {set' : List StateId} (h : a.IsClosure set) (h' : a.IsClosure set')
    (hset : ∀ s, s ∈ set ↔ s ∈ set') : set = set' :=
  h.pairwise.eq_of_mem_iff h'.pairwise hset

theorem IsClosure.matters (hsize : a.edges.size = a.size) (h : a.IsClosure set) (hs : s ∈ set) :
    a.matters s = true := by
  obtain ⟨-, seeds, rfl⟩ := h
  exact ((mem_closure hsize).mp hs).1

end Automaton

namespace Table

variable {a : Automaton} {t : Table} {r : Row} {limit : Nat} {register register' : MergeRegister}
  {found found' : Found limit} {rows : Array Row} {set : List StateId} {start id : StateId}

/-- Each state found stands for a closure that arises, and all merged sets have been found. -/
structure Discovers (a : Automaton) (register : MergeRegister) (found : Found limit) : Prop where
  arises : ∀ id ∈ found.states, ∃ set, a.Arises set ∧ register.Holds id set
  merged : ∀ {n : Nat} {set : List StateId},
    register.sets[n]? = some set → register.first + n ∈ found.states

theorem Discovers.arises_members (hd : Discovers a register found) (hid : id ∈ found.states) :
    a.Arises (register.members id) := by
  obtain ⟨set, hset, hholds⟩ := hd.arises id hid
  rwa [hholds.members_eq]

theorem enter_discovers (hsize : a.edges.size = a.size) (ht : Tracks a register found)
    (hd : Discovers a register found) (hset : a.Arises set)
    (h : enter a register found set = .ok (id, register', found')) :
    Discovers a register' found' := by
  obtain ⟨-, hl, hid, hholds⟩ := enter_spec hsize ht hset.isClosure h
  obtain ⟨m, hm, rfl, hadd⟩ := enter_cases h
  have hkept {x : StateId} (hx : x ∈ found.states) : x ∈ found'.states :=
    Found.mem_add hadd |>.mpr (.inl hx)
  refine ⟨fun x hx => ?_, fun {n other} hn => ?_⟩
  · rcases (Found.mem_add hadd).mp hx with hx | rfl
    · obtain ⟨other, hother, hx⟩ := hd.arises x hx
      exact ⟨other, hother, hx.mono hl.extends_register⟩
    · exact ⟨set, hset, hholds⟩
  · rcases MergeRegister.sets_of_mergeSorted hm hn with hn | hn
    · rw [hl.extends_register.first_eq]
      exact hkept (hd.merged hn)
    · rwa [← hn]

theorem moves_discovers (hsize : a.edges.size = a.size) {pairs : List (Symbol × List StateId)}
    {ms : List (Symbol × StateId)} (ht : Tracks a register found)
    (hd : Discovers a register found)
    (hpairs : ∀ p ∈ pairs, p.1 ≠ .lambda → a.closure p.2 ≠ [] → a.Arises (a.closure p.2))
    (h : moves a a.silentTargets register found pairs = .ok (ms, register', found')) :
    Discovers a register' found' := by
  induction pairs generalizing register found ms with
  | nil =>
    cases h
    exact hd
  | cons pair pairs ih =>
    have hrest := fun p hp => hpairs p (List.mem_cons_of_mem _ hp)
    rcases moves_cons h with ⟨-, h⟩ | ⟨hc, hne, id, register₁, found₁, later, henter, hlater, rfl⟩
    · exact ih ht hd hrest h
    · have harises := hpairs pair (List.mem_cons_self ..) hc hne
      obtain ⟨ht₁, -⟩ := enter_spec hsize ht harises.isClosure henter
      exact ih ht₁ (enter_discovers hsize ht hd harises henter) hrest hlater

/-- What is known of the rows, the register and the states found after some rounds. -/
structure Surveyed (a : Automaton) (start : StateId) (rows : Array Row) (register : MergeRegister)
    (found : Found limit) : Prop where
  tracks : Tracks a register found
  discovers : Discovers a register found
  explored : Explored a register found rows.toList
  start_first : [start] <+: found.states.toList
  isRow : ∀ r ∈ rows, ∃ ms, (ms.map Prod.fst).Nodup ∧ a.row r.id r.members ms = some r

theorem Surveyed.kept (hsize : a.edges.size = a.size) :
    KeptByRounds a fun rows register (found : Found limit) =>
      Surveyed a start rows register found where
  round {rows register register' found found' id ms r} h hnext hms hr := by
    have harises := h.discovers.arises_members (Array.mem_of_getElem? hnext)
    obtain ⟨ht, hl, hsub, -⟩ := moves_spec hsize h.tracks hms
    refine ⟨ht, moves_discovers hsize h.tracks h.discovers (fun p hp hc hne => ?_) hms,
      h.explored.round hsize h.tracks hnext hms hr, h.start_first.trans hl.states_prefix,
      fun r' hr' => ?_⟩
    · rw [← successors_of_mem_targets hp] at hne ⊢
      exact harises.next hc hne
    · rcases Array.mem_push.mp hr' with hr' | rfl
      · exact h.isRow r' hr'
      · obtain ⟨hid, hmembers, -⟩ := row_fields hr
        exact ⟨ms, hsub.nodup (nodup_keys_toList _), by rw [hid, hmembers, hr]⟩

theorem discovers_empty (a : Automaton) (limit : Nat) :
    Discovers a (.empty a.size) (.empty limit) :=
  ⟨fun _ hid => absurd hid (Array.not_mem_empty _), fun hn => by simp at hn⟩

/-- After entering the closure of the start, its state is all that is known. -/
theorem surveyed_of_enter (hsize : a.edges.size = a.size)
    (hstart : a.closure [Automaton.start] ≠ [])
    (h : enter a (.empty a.size) (.empty limit) (a.closure [Automaton.start]) =
      .ok (start, register, found)) : Surveyed a start #[] register found := by
  have hnone := tracks_empty a limit
  obtain ⟨ht, -⟩ := enter_spec hsize hnone ⟨hstart, _, rfl⟩ h
  have hd := enter_discovers hsize hnone (discovers_empty a limit) (.start hstart) h
  refine ⟨ht, hd, ⟨List.nil_prefix, by simp⟩, ?_, by simp⟩
  obtain ⟨m, -, rfl, hadd⟩ := enter_cases h
  rcases Found.add_cases hadd with ⟨hid, -⟩ | ⟨-, hstates⟩
  · exact absurd hid (Array.not_mem_empty _)
  · simp [hstates]

/-- The numbers of the rows. -/
def states (t : Table) : List StateId := t.rows.map Row.id

/-- Where each symbol leads from each state. -/
def transitions (t : Table) : List (StateId × Symbol × StateId) :=
  t.rows.flatMap fun r => r.moves.map fun p => (r.id, p.1, p.2)

/-- A table of an automaton whose start does not lead nowhere comes from exploring. -/
theorem surveyed_of_determinize (hsize : a.edges.size = a.size)
    (hstart : a.closure [Automaton.start] ≠ []) (h : determinize a limit = .ok t) :
    ∃ found : Found limit, t.states = found.states.toList ∧
      Surveyed a t.start t.rows.toArray t.register found := by
  obtain ⟨register, found, henter, hexplore, -⟩ := determinize_cases hstart h
  obtain ⟨found', hend, hsurveyed⟩ :=
    (Surveyed.kept hsize).explore_ok (surveyed_of_enter hsize hstart henter) hexplore
  exact ⟨found', hsurveyed.explored.ids_eq hend, hsurveyed⟩

/-- The rows of a table are made from their members. -/
theorem rows_made (hsize : a.edges.size = a.size) (hstart : a.closure [Automaton.start] ≠ [])
    (h : determinize a limit = .ok t) : ∀ r ∈ t.rows, ∃ ms, a.row r.id r.members ms = some r := by
  obtain ⟨found, -, hs⟩ := surveyed_of_determinize hsize hstart h
  intro r hr
  obtain ⟨ms, -, hrow⟩ := hs.isRow r (by simpa using hr)
  exact ⟨ms, hrow⟩

/-- As many sets are merged as states found have several members. -/
theorem Discovers.size_register (ht : Tracks a register found) (hd : Discovers a register found) :
    register.size =
      (found.states.toList.filter fun id => 2 ≤ (register.members id).length).length := by
  have hperm : (found.states.toList.filter fun id => 2 ≤ (register.members id).length).Perm
      ((List.range register.size).map (register.first + ·)) := by
    refine (List.perm_ext_iff_of_nodup (ht.nodup.filter _)
      (List.nodup_range.map fun _ _ => Nat.add_left_cancel)).mpr fun id => ?_
    simp only [List.mem_filter, decide_eq_true_eq, List.mem_map, List.mem_range,
      Array.mem_toList_iff]
    constructor
    · rintro ⟨hid, hlen⟩
      exact (ht.members hid).2.exists_place hlen
    · rintro ⟨n, hn, rfl⟩
      have hfound := hd.merged (Array.getElem?_eq_getElem hn)
      exact ⟨hfound, (ht.members hfound).2.first_le_iff.mp (Nat.le_add_right ..)⟩
  rw [hperm.length_eq, List.length_map, List.length_range]

/-- Each row stands for a set of states of the automaton, and no two rows for the same. -/
structure Canonical (a : Automaton) (t : Table) : Prop where
  nodup : t.states.Nodup
  start_first : t.states.head? = some t.start
  walk_to : ∀ id ∈ t.states, ∃ w, .lambda ∉ w ∧ t.walk w = some id
  transition_iff : ∀ {id c id'}, (id, c, id') ∈ t.transitions ↔ t.next id c = some id'
  joins : ∀ {id c id'}, (id, c, id') ∈ t.transitions →
    id ∈ t.states ∧ c ≠ .lambda ∧ id' ∈ t.states
  eq_of_members : ∀ id ∈ t.states, ∀ id' ∈ t.states,
    t.register.members id = t.register.members id' → id = id'
  eq_of_single : ∀ id ∈ t.states, ∀ s, t.register.members id = [s] → id = s
  size_le : ∀ id ∈ t.states, 2 ≤ (t.register.members id).length → a.size ≤ id
  size_register : t.register.size =
    (t.states.filter fun id => 2 ≤ (t.register.members id).length).length
  reject_notMem : a.isFinal Automaton.reject = false → a.edgesOf Automaton.reject = [] →
    ∀ id ∈ t.states, Automaton.reject ∉ t.register.members id

theorem mem_transitions {c : Symbol} {id' : StateId} :
    (id, c, id') ∈ t.transitions ↔ ∃ r ∈ t.rows, r.id = id ∧ (c, id') ∈ r.moves := by
  simp [transitions, and_left_comm]

/-- Looking a transition up finds it. -/
theorem next_iff_mem_transitions (ht : t.Exact a)
    (hmoves : ∀ r ∈ t.rows, (r.moves.map Prod.fst).Nodup) {c : Symbol} {id' : StateId} :
    (id, c, id') ∈ t.transitions ↔ t.next id c = some id' := by
  rw [mem_transitions]
  constructor
  · rintro ⟨r, hr, rfl, hmem⟩
    rw [ht.next_eq hr]
    exact lookup_of_mem (hmoves r hr) hmem
  · intro h
    obtain ⟨r, hr, hlookup⟩ := Option.bind_eq_some_iff.mp h
    obtain ⟨hmem, rfl⟩ := (row?_eq_some_iff ht.nodup).mp hr
    exact ⟨r, hmem, rfl, mem_of_lookup hlookup⟩

theorem transitions_deadEnd : (deadEnd a).transitions = [] := rfl

theorem mem_states_deadEnd : id ∈ (deadEnd a).states ↔ id = Automaton.start := List.mem_singleton

theorem members_deadEnd : (deadEnd a).register.members id = [id] := by
  simp [deadEnd, MergeRegister.members, MergeRegister.get?]

theorem canonical_deadEnd (a : Automaton) : (deadEnd a).Canonical a where
  nodup := List.nodup_singleton _
  start_first := rfl
  walk_to id hid := ⟨[], List.not_mem_nil, congrArg some (mem_states_deadEnd.mp hid).symm⟩
  transition_iff := by simp [transitions_deadEnd, next_deadEnd]
  joins := by simp [transitions_deadEnd]
  eq_of_members := by simp [members_deadEnd]
  eq_of_single := by simp [members_deadEnd]
  size_le := by simp [members_deadEnd]
  size_register := by
    simp only [members_deadEnd]
    rfl
  reject_notMem := by simp [mem_states_deadEnd, members_deadEnd, Automaton.start, Automaton.reject]

/-- A walk leads to each state whose members arise. -/
theorem Exact.exists_walk (ht : t.Exact a) (hsize : a.edges.size = a.size) (hset : a.Arises set)
    (hid : t.register.Holds id set) : ∃ w, .lambda ∉ w ∧ t.walk w = some id := by
  obtain ⟨w, hw, hreached⟩ := hset.exists_reached hsize
  obtain ⟨s, hs⟩ := List.exists_mem_of_ne_nil _ hset.isClosure.1
  obtain ⟨r, hr, hwalk, hmembers⟩ := ht.walk_eq_some hsize hw ⟨s, (hreached s).mp hs⟩
  have hrow := ht.rows r hr
  have hsame : r.members = set :=
    hrow.closure.ext hset.isClosure fun s => (hmembers s).trans (hreached s).symm
  have hrid : r.id = id := (hsame ▸ hrow.holds).id_unique hid
  exact ⟨w, hw, hrid ▸ hwalk⟩

/-- A transition leads from a row's state to that of a row, and not by a silent symbol. -/
theorem Exact.joins (ht : t.Exact a) {c : Symbol} {id' : StateId} (h : t.next id c = some id') :
    id ∈ t.states ∧ c ≠ .lambda ∧ id' ∈ t.states := by
  obtain ⟨r, hrow, -⟩ := Option.bind_eq_some_iff.mp h
  obtain ⟨hr, rfl⟩ := (row?_eq_some_iff ht.nodup).mp hrow
  have hleads : ¬ (c = .lambda ∨ a.successors r.members c = []) := fun hnone => by
    simp [ht.next_eq_none hr hnone] at h
  obtain ⟨hc, hne⟩ := not_or.mp hleads
  obtain ⟨r', hr', hnext, -⟩ := ht.next_eq_some hr hc hne
  rw [h, Option.some.injEq] at hnext
  exact ⟨List.mem_map_of_mem hr, hc, hnext ▸ List.mem_map_of_mem hr'⟩

/-- The table of an automaton is canonical. -/
theorem canonical_of_ofAutomaton (ha : a.Built) (h : ofAutomaton a limit = .ok t) :
    t.Canonical a := by
  have hsize := ha.size_edges
  rcases exact_of_ofAutomaton hsize h with ⟨-, rfl⟩ | ht
  · exact canonical_deadEnd a
  have hstart : a.closure [Automaton.start] ≠ [] := by
    obtain ⟨r, hr, -, hmembers⟩ := ht.start
    exact hmembers ▸ (ht.rows r hr).closure.1
  obtain ⟨found, hstates, hs⟩ := surveyed_of_determinize hsize hstart (ofAutomaton_eq_ok.mp h)
  have hmem {id : StateId} : id ∈ t.states ↔ id ∈ found.states := by
    rw [hstates, Array.mem_toList_iff]
  have hholds {id : StateId} (hid : id ∈ t.states) :
      t.register.Holds id (t.register.members id) := (hs.tracks.members (hmem.mp hid)).2
  have htransition {id : StateId} {c : Symbol} {id' : StateId} :
      (id, c, id') ∈ t.transitions ↔ t.next id c = some id' := by
    refine next_iff_mem_transitions ht fun r hr => ?_
    obtain ⟨ms, hms, hrow⟩ := hs.isRow r (by simpa using hr)
    rw [(row_fields hrow).2.2]
    exact hms
  constructor
  case nodup => exact ht.nodup
  case start_first =>
    obtain ⟨rest, hrest⟩ := hs.start_first
    rw [hstates, ← hrest]
    rfl
  case walk_to =>
    intro id hid
    obtain ⟨set, hset, hholds⟩ := hs.discovers.arises id (hmem.mp hid)
    exact ht.exists_walk hsize hset hholds
  case transition_iff => exact htransition
  case joins => exact fun h => ht.joins (htransition.mp h)
  case eq_of_members =>
    intro id hid id' hid' heq
    exact (hholds hid).id_unique (heq ▸ hholds hid')
  case eq_of_single =>
    intro id hid s hsingle
    exact (hsingle ▸ hholds hid).eq_of_single
  case size_le =>
    intro id hid hlen
    rw [← (hholds hid).first_le_iff, hs.tracks.first_eq] at hlen
    exact hlen
  case size_register =>
    rw [hstates]
    exact hs.discovers.size_register hs.tracks
  case reject_notMem =>
    intro hfinal hedges id hid hreject
    have hmatters := (hs.tracks.members (hmem.mp hid)).1.matters hsize hreject
    simp [Automaton.matters, hfinal, Automaton.hasReadingEdge, hedges] at hmatters

/-- Three branches that read `ab`: the first holds `b` back, the others write `x` and `y` for it. -/
def threeBranches : Automaton :=
  Automaton.empty
    |>.addState true |>.addState true |>.addState true |>.addState false
    |>.addEdge Automaton.start (.char 'a') 2 |>.addEdge 2 (.char 'b') 5
    |>.addEdge Automaton.start (.char 'a') 3 |>.addEdge 3 (.char 'b') 5
    |>.addEdge Automaton.start (.char 'a') 4 |>.addEdge 4 (.char 'b') 5
    |>.addTransform (.null ['b'] [] 0) |>.attach 2 (.char 'b') 0
    |>.addTransform (.ordinary ['x'] ['b'] ['x'] 0) |>.attach 3 (.char 'b') 1
    |>.addTransform (.ordinary ['y'] ['b'] ['y'] 0) |>.attach 4 (.char 'b') 2
    |>.setFinal 5

theorem threeBranches_built : threeBranches.Built := by
  repeat constructor

theorem threeBranches_registered : threeBranches.Registered := by
  refine Automaton.Registered.setFinal (.attach (.addTransform ?_ _) (by decide))
  refine .attach (.addTransform (.attach (.addTransform ?_ _) (by decide)) _) (by decide)
  exact .addEdge <| .addEdge <| .addEdge <| .addEdge <| .addEdge <| .addEdge <| .addState
    (.addState (.addState (.addState Automaton.registered_empty _) _) _) _

theorem canonical_threeBranches :
    ∃ t, ofAutomaton threeBranches 3 = .ok t ∧ t.Canonical threeBranches := by
  obtain ⟨t, ht⟩ : ∃ t, ofAutomaton threeBranches 3 = .ok t := exists_ok (by decide +kernel)
  exact ⟨t, ht, canonical_of_ofAutomaton threeBranches_built ht⟩

end Table

end SoundChange
