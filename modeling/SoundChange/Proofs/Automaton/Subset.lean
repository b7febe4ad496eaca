import SoundChange.Proofs.Automaton.Exploration
import Mathlib.Data.List.Induction
import Mathlib.Data.Set.Basic

/-!
# The subset construction is exact

A table is read by a `Table.walk` from its start. The state that the walk comes to has exactly the
members that the automaton can have reached (`Table.Exact.walk_eq_some`), and the walk breaks off
where the automaton can have reached nothing that matters (`Table.Exact.walk_eq_none`). So a table
accepts what its automaton accepts (`Table.accepts_iff`).
-/

namespace SoundChange

namespace Automaton

variable {a : Automaton} {s : StateId} {c : Symbol} {v w : List Symbol}

theorem mem_reached_nil (h : a.edges.size = a.size) :
    s ∈ a.reached [] ↔ s ∈ a.closure [start] := by
  rw [mem_closure h, mem_reached]
  simp

/-- Where something that matters is reached, it was before. -/
theorem reached_nonempty_of_prefix (hv : v <+: w) (h : (a.reached w).Nonempty) :
    (a.reached v).Nonempty := by
  obtain ⟨rest, rfl⟩ := hv
  obtain ⟨s, hs, hreads⟩ := h
  obtain ⟨t, ht, hrest⟩ := hreads.split
  cases rest with
  | nil => exact ⟨s, hs, by simpa using ht.append hrest⟩
  | cons c rest =>
    obtain ⟨hc, p, q, hp, hq, -⟩ := Reads.cons_iff.mp hrest
    exact ⟨p, matters_of_mem_edgesOf hq hc, by simpa using ht.append hp⟩

/-- What can be accepted is what reaches a final state. -/
theorem accepts_start_iff : a.Accepts start w ↔ ∃ s ∈ a.reached w, a.isFinal s = true := by
  constructor
  · rintro ⟨s, hs, hfinal⟩
    exact ⟨s, ⟨by rw [matters, hfinal, Bool.true_or], hs⟩, hfinal⟩
  · rintro ⟨s, ⟨-, hs⟩, hfinal⟩
    exact ⟨s, hs, hfinal⟩

end Automaton

namespace Table

variable {a : Automaton} {t : Table} {r : Row} {c : Symbol} {w : List Symbol}

/-- A table is made from its automaton. -/
theorem automaton_eq {limit : Nat} (h : ofAutomaton a limit = .ok t) : t.automaton = a := by
  rw [ofAutomaton_eq_ok] at h
  unfold determinize at h
  dsimp only at h
  split at h
  · cases h
    rfl
  split at h
  · split at h
    · cases h
      rfl
    · cases h
  · cases h

/-- The state to which some symbols lead from the start, one after the other. -/
def walk (t : Table) (w : List Symbol) : Option StateId := w.foldlM t.next t.start

/-- The symbols lead to a final state. -/
def accepts (t : Table) (w : List Symbol) : Bool := (t.walk w).any t.isFinal

theorem walk_concat : t.walk (w ++ [c]) = (t.walk w).bind fun id => t.next id c := by
  simp [walk, List.foldlM_append, Option.bind_eq_bind]

/-- Looking up a state finds its row. -/
theorem row?_eq_some_iff (hnodup : (t.rows.map Row.id).Nodup) {id : StateId} :
    t.row? id = some r ↔ r ∈ t.rows ∧ r.id = id := by
  have hfind (r : Row) (hr : r ∈ t.rows) : t.row? r.id = some r := by
    rw [row?, t.index_eq, Row.index]
    refine Std.TreeMap.getElem?_ofList_of_mem (k := r.id) (Ranked.ordering_eq.mpr rfl) ?_
      (List.mem_map_of_mem hr)
    rw [List.pairwise_map]
    exact (List.pairwise_map.mp hnodup).imp fun hne => mt Ranked.ordering_eq.mp hne
  constructor
  · intro h
    by_cases hid : ∃ r' ∈ t.rows, r'.id = id
    · obtain ⟨r', hr', rfl⟩ := hid
      obtain rfl := Option.some.inj ((hfind r' hr').symm.trans h)
      exact ⟨hr', rfl⟩
    · rw [row?, t.index_eq, Row.index, Std.TreeMap.getElem?_ofList_of_contains_eq_false] at h
      · cases h
      · rw [List.map_map, List.contains_eq_any_beq, List.any_eq_false]
        intro other hother
        obtain ⟨r', hr', rfl⟩ := List.mem_map.mp hother
        exact fun heq => hid ⟨r', hr', (beq_iff_eq.mp heq).symm⟩
  · rintro ⟨hr, rfl⟩
    exact hfind r hr

namespace Exact

theorem next_eq (ht : t.Exact a) (hr : r ∈ t.rows) : t.next r.id c = r.moves.lookup c := by
  rw [next, (row?_eq_some_iff ht.nodup).mpr ⟨hr, rfl⟩, Option.bind_some]

theorem isFinal_eq (ht : t.Exact a) (hr : r ∈ t.rows) :
    t.isFinal r.id = r.members.any a.isFinal := by
  rw [isFinal, (row?_eq_some_iff ht.nodup).mpr ⟨hr, rfl⟩, Option.any_some,
    (ht.rows r hr).isFinal_eq]

/-- A symbol leads to the row of the successors. -/
theorem next_eq_some (ht : t.Exact a) (hr : r ∈ t.rows) (hc : c ≠ .lambda)
    (hne : a.successors r.members c ≠ []) :
    ∃ r' ∈ t.rows, t.next r.id c = some r'.id ∧ r'.members = a.successors r.members c := by
  obtain ⟨id, hid, hlookup, hholds⟩ := (ht.rows r hr).moves_some hc hne
  obtain ⟨r', hr', rfl⟩ := List.mem_map.mp hid
  exact ⟨r', hr', (ht.next_eq hr).trans hlookup, (ht.rows r' hr').holds.set_unique hholds⟩

theorem next_eq_none (ht : t.Exact a) (hr : r ∈ t.rows)
    (h : c = .lambda ∨ a.successors r.members c = []) : t.next r.id c = none :=
  (ht.next_eq hr).trans ((ht.rows r hr).moves_none h)

/-- Where the automaton can reach something that matters, the walk comes to its state. -/
theorem walk_eq_some (ht : t.Exact a) (hsize : a.edges.size = a.size) (hw : .lambda ∉ w)
    (h : (a.reached w).Nonempty) :
    ∃ r ∈ t.rows, t.walk w = some r.id ∧ ∀ s, s ∈ r.members ↔ s ∈ a.reached w := by
  induction w using List.reverseRecOn with
  | nil =>
    obtain ⟨r, hr, hid, hmembers⟩ := ht.start
    exact ⟨r, hr, congrArg some hid.symm, fun s => by
      rw [hmembers, Automaton.mem_reached_nil hsize]⟩
  | append_singleton w c ih =>
    rw [List.mem_append, List.mem_singleton, not_or] at hw
    have hc : c ≠ .lambda := Ne.symm hw.2
    have hbefore : (a.reached w).Nonempty :=
      Automaton.reached_nonempty_of_prefix (List.prefix_append ..) h
    obtain ⟨r, hr, hwalk, hmembers⟩ := ih hw.1 hbefore
    have hnext (s : StateId) : s ∈ a.successors r.members c ↔ s ∈ a.reached (w ++ [c]) := by
      rw [Automaton.mem_successors hsize, Automaton.mem_reached_concat hc]
      simp only [hmembers]
    have hne : a.successors r.members c ≠ [] := by
      obtain ⟨s, hs⟩ := h
      exact List.ne_nil_of_mem ((hnext s).mpr hs)
    obtain ⟨r', hr', hstep, hmembers'⟩ := ht.next_eq_some hr hc hne
    refine ⟨r', hr', ?_, fun s => by rw [hmembers', hnext]⟩
    rw [walk_concat, hwalk, Option.bind_some, hstep]

/-- Where the automaton can reach nothing that matters, the walk has broken off. -/
theorem walk_eq_none (ht : t.Exact a) (hsize : a.edges.size = a.size) (hw : .lambda ∉ w)
    (h : ¬ (a.reached w).Nonempty) : t.walk w = none := by
  induction w using List.reverseRecOn with
  | nil =>
    obtain ⟨r, hr, -, hmembers⟩ := ht.start
    obtain ⟨s, hs⟩ := List.exists_mem_of_ne_nil _ (ht.rows r hr).closure.1
    rw [hmembers, ← Automaton.mem_reached_nil hsize] at hs
    exact absurd ⟨s, hs⟩ h
  | append_singleton w c ih =>
    rw [List.mem_append, List.mem_singleton, not_or] at hw
    have hc : c ≠ .lambda := Ne.symm hw.2
    rw [walk_concat]
    by_cases hbefore : (a.reached w).Nonempty
    · obtain ⟨r, hr, hwalk, hmembers⟩ := ht.walk_eq_some hsize hw.1 hbefore
      rw [hwalk, Option.bind_some]
      refine ht.next_eq_none hr (.inr (List.eq_nil_iff_forall_not_mem.mpr fun s hs => h ⟨s, ?_⟩))
      rw [Automaton.mem_successors hsize] at hs
      simpa only [Automaton.mem_reached_concat hc, hmembers] using hs
    · rw [ih hw.1 hbefore, Option.bind_none]

/-- A walk stays among the rows and reads no silent symbol. -/
theorem mem_rows_of_walk (ht : t.Exact a) {id : StateId} (h : t.walk w = some id) :
    .lambda ∉ w ∧ ∃ r ∈ t.rows, r.id = id := by
  induction w using List.reverseRecOn generalizing id with
  | nil =>
    obtain ⟨r, hr, hid, -⟩ := ht.start
    exact ⟨List.not_mem_nil, r, hr, hid.trans (Option.some.inj h)⟩
  | append_singleton w c ih =>
    rw [walk_concat, Option.bind_eq_some_iff] at h
    obtain ⟨_, hwalk, hnext⟩ := h
    obtain ⟨hw, r, hr, rfl⟩ := ih hwalk
    have hc : ¬ (c = .lambda ∨ a.successors r.members c = []) := fun hc => by
      rw [ht.next_eq_none hr hc] at hnext
      cases hnext
    rw [not_or] at hc
    obtain ⟨r', hr', hsome, -⟩ := ht.next_eq_some hr hc.1 hc.2
    refine ⟨?_, r', hr', Option.some.inj (hsome.symm.trans hnext)⟩
    rw [List.mem_append, List.mem_singleton, not_or]
    exact ⟨hw, Ne.symm hc.1⟩

end Exact

/-! ## The dead end -/

theorem row?_deadEnd {id : StateId} (h : (deadEnd a).row? id = some r) :
    r.moves = [] ∧ r.isFinal = false := by
  rw [row?_eq_some_iff (by simp [deadEnd])] at h
  rw [List.mem_singleton.mp h.1]
  exact ⟨rfl, rfl⟩

theorem next_deadEnd (id : StateId) (c : Symbol) : (deadEnd a).next id c = none := by
  rw [next, Option.bind_eq_none_iff]
  intro r hr
  rw [(row?_deadEnd hr).1, List.lookup_nil]

theorem isFinal_deadEnd (id : StateId) : (deadEnd a).isFinal id = false := by
  rw [isFinal, Option.any_eq_false]
  intro r hr
  rw [(row?_deadEnd hr).2]

/-- A table accepts what its automaton accepts. -/
theorem accepts_iff (hsize : a.edges.size = a.size) {limit : Nat}
    (h : ofAutomaton a limit = .ok t) : t.accepts w = true ↔ a.Accepts Automaton.start w := by
  rw [Automaton.accepts_start_iff, accepts, Option.any_eq_true]
  rcases exact_of_ofAutomaton hsize h with ⟨hnil, rfl⟩ | ht
  · constructor
    · rintro ⟨id, -, hfinal⟩
      rw [isFinal_deadEnd] at hfinal
      cases hfinal
    · rintro ⟨s, hs, -⟩
      obtain ⟨s, hs⟩ := Automaton.reached_nonempty_of_prefix List.nil_prefix ⟨s, hs⟩
      rw [Automaton.mem_reached_nil hsize, hnil] at hs
      cases hs
  · constructor
    · rintro ⟨id, hwalk, hfinal⟩
      obtain ⟨hw, -⟩ := ht.mem_rows_of_walk hwalk
      by_cases hne : (a.reached w).Nonempty
      · obtain ⟨r, hr, hsome, hmembers⟩ := ht.walk_eq_some hsize hw hne
        obtain rfl := Option.some.inj (hsome.symm.trans hwalk)
        rw [ht.isFinal_eq hr, List.any_eq_true] at hfinal
        simpa only [hmembers] using hfinal
      · rw [ht.walk_eq_none hsize hw hne] at hwalk
        cases hwalk
    · rintro ⟨s, hs, hfinal⟩
      obtain ⟨steps, hrun⟩ := hs.2
      obtain ⟨r, hr, hsome, hmembers⟩ := ht.walk_eq_some hsize hrun.lambda_not_mem ⟨s, hs⟩
      refine ⟨r.id, hsome, ?_⟩
      rw [ht.isFinal_eq hr, List.any_eq_true]
      exact ⟨s, (hmembers s).mpr hs, hfinal⟩

/-- As long as the automaton reaches something that matters, the walk comes to the state whose
members are what it reaches, in ascending order, and which is final if one of them is. Otherwise the
walk breaks off, or there is no walk and no final state at all. -/
theorem members_walk {limit : Nat} (ha : a.Built) (ht : ofAutomaton a limit = .ok t)
    (hw : .lambda ∉ w) :
    ((∀ v, v <+: w → (a.reached v).Nonempty) →
      ∃ id, t.walk w = some id ∧ (t.register.members id).Pairwise (· < ·) ∧
        (∀ s, s ∈ t.register.members id ↔ s ∈ a.reached w) ∧
        (t.isFinal id = true ↔ ∃ s ∈ a.reached w, a.isFinal s = true)) ∧
    ((∃ v, v <+: w ∧ ¬ (a.reached v).Nonempty) →
      t.walk w = none ∨
        ¬ (a.reached []).Nonempty ∧ (∀ id, t.isFinal id = false) ∧ ∀ id c, t.next id c = none) := by
  have hsize := ha.size_edges
  rcases exact_of_ofAutomaton hsize ht with ⟨hnil, rfl⟩ | hexact
  · have hempty : ¬ (a.reached []).Nonempty := by
      rintro ⟨s, hs⟩
      rw [Automaton.mem_reached_nil hsize, hnil] at hs
      cases hs
    exact ⟨fun h => absurd (h [] List.nil_prefix) hempty,
      fun _ => .inr ⟨hempty, isFinal_deadEnd, next_deadEnd⟩⟩
  · constructor
    · intro h
      obtain ⟨r, hr, hwalk, hmembers⟩ := hexact.walk_eq_some hsize hw (h w List.prefix_rfl)
      have hr' := hexact.rows r hr
      have hset : t.register.members r.id = r.members := hr'.holds.members_eq
      obtain ⟨-, seeds, hseeds⟩ := hr'.closure
      refine ⟨r.id, hwalk, ?_, fun s => by rw [hset, hmembers], ?_⟩
      · rw [hset, hseeds]
        exact Automaton.closure_pairwise
      · rw [hexact.isFinal_eq hr, List.any_eq_true]
        simp only [hmembers]
    · rintro ⟨v, hv, hempty⟩
      exact .inl (hexact.walk_eq_none hsize hw
        (mt (Automaton.reached_nonempty_of_prefix hv) hempty))

/-- Two states that pass to each other silently; the second reads `a` again and again. -/
def silentCycle : Automaton :=
  ((((Automaton.empty.addState false).addEdge Automaton.start .lambda 2).addEdge 2 .lambda
    Automaton.start).addEdge 2 (.char 'a') 2).setFinal 2

theorem silentCycle_built : silentCycle.Built :=
  .setFinal _ (.addEdge _ _ _ (.addEdge _ _ _ (.addEdge _ _ _ (.addState _ .empty))))

theorem members_walk_silentCycle :
    ∃ t, ofAutomaton silentCycle 4 = .ok t ∧ ∃ id, t.walk [.char 'a', .char 'a'] = some id ∧
      ∀ s, s ∈ t.register.members id ↔ s ∈ silentCycle.reached [.char 'a', .char 'a'] := by
  have hreads : silentCycle.Reads Automaton.start [.char 'a', .char 'a'] 2 :=
    .silent (t := 2) (by rw [Automaton.Passes]; decide +kernel)
      (.read (t := 2) nofun (by decide +kernel)
        (.read (t := 2) nofun (by decide +kernel) (.refl ..)))
  obtain ⟨t, ht⟩ : ∃ t, ofAutomaton silentCycle 4 = .ok t := exists_ok (by decide +kernel)
  obtain ⟨id, hwalk, -, hmembers, -⟩ :=
    (members_walk silentCycle_built ht (by decide)).1 fun v hv =>
      Automaton.reached_nonempty_of_prefix hv ⟨2, by decide +kernel, hreads⟩
  exact ⟨t, ht, id, hwalk, hmembers⟩

end Table

end SoundChange
