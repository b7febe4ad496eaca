import SoundChange.Proofs.Automaton.Run

/-!
# What the search for a path finds

`Automaton.search` gives up a place once it has visited it. Nothing is lost by that: what has been
visited without success is closed under advancing (`Automaton.exists_closed_of_search`), so nothing
can be found from there.

* `Advances`: one edge, taken as the search takes it, without going to the rejecting state or
  leaving a state that forbids the symbol ahead;
* `Finds`: a final state can be reached by advancing;
* `acceptingPath_isSome_of_finds`: a path is found if there is one;
* `run_of_acceptingPath`: it is a run to a final state.
-/

namespace SoundChange

namespace Automaton

variable {a : Automaton} {s t : StateId} {c : Symbol} {span w v : List Symbol}

/-- The state forbids the symbol ahead. -/
def Bars (a : Automaton) (s : StateId) (w : List Symbol) : Prop :=
  ∃ c, w.head? = some c ∧ ⟨c, reject⟩ ∈ a.edgesOf s

/-- An edge of `c` is taken from one state, with `w` ahead, to another, with `v` ahead. -/
structure Advances (a : Automaton) (c : Symbol) (s : StateId) (w : List Symbol) (t : StateId)
    (v : List Symbol) : Prop where
  not_bars : ¬ a.Bars s w
  edge : ⟨c, t⟩ ∈ a.edgesOf s
  ne_reject : t ≠ reject
  reads : c = .lambda ∧ v = w ∨ c ≠ .lambda ∧ w = c :: v

/-- A final state can be reached with nothing left to read. -/
inductive Finds (a : Automaton) : StateId → List Symbol → Prop where
  | stop {s : StateId} : a.isFinal s = true → Finds a s []
  | step {c : Symbol} {s t : StateId} {w v : List Symbol} :
      a.Advances c s w t v → Finds a t v → Finds a s w

end Automaton

namespace Trail

open Automaton

variable {limit : Nat} {a : Automaton} {t u : Trail limit} {c : Symbol} {s : StateId}
  {span w v : List Symbol}

theorem isBarred_iff : t.isBarred a = true ↔ a.Bars t.state t.rest := by
  rw [isBarred, Option.any_eq_true]
  exact exists_congr fun c => and_congr_right fun _ => decide_eq_true_iff

/-- The trail has read the beginning of a span and taken a run to its state. -/
structure Follows (a : Automaton) (span : List Symbol) (t : Trail limit) : Prop where
  rest_eq : t.rest = span.drop t.read
  run : a.Run start t.steps.reverse (span.take t.read) t.state

theorem follow_eq_some {e : Edge} (h : t.follow e = some u) :
    e.target ≠ reject ∧ u.state = e.target ∧
      (e.symbol = .lambda ∧ u.rest = t.rest ∧ u.read = t.read ∨
        e.symbol ≠ .lambda ∧ t.rest = e.symbol :: u.rest ∧ u.read = t.read + 1) ∧
      u.steps = ⟨t.state, e.symbol⟩ :: t.steps := by
  rw [follow] at h
  split at h
  · cases h
  rename_i hreject
  split at h
  · rename_i hsymbol
    cases h
    exact ⟨hreject, rfl, .inl ⟨hsymbol, rfl, rfl⟩, by rw [hsymbol]⟩
  rename_i hsymbol
  split at h
  · cases h
  rename_i c rest hrest
  split at h
  · rename_i hc
    cases h
    exact ⟨hreject, rfl, .inr ⟨hsymbol, hrest.trans (by rw [hc]), rfl⟩, by rw [hc]⟩
  · cases h

/-- A longer trail has advanced by an edge. -/
theorem advances_of_mem_extensions (h : u ∈ t.extensions a) : ∃ c,
    a.Advances c t.state t.rest u.state u.rest ∧ u.steps = ⟨t.state, c⟩ :: t.steps ∧
      u.read = t.read + if c = .lambda then 0 else 1 := by
  rw [extensions] at h
  split at h
  · cases h
  rename_i hbar
  obtain ⟨e, he, hfollow⟩ := List.mem_filterMap.mp h
  obtain ⟨hreject, hstate, hreads, hsteps⟩ := follow_eq_some hfollow
  refine ⟨e.symbol, ⟨mt isBarred_iff.mpr hbar, hstate ▸ he, hstate ▸ hreject, ?_⟩, hsteps, ?_⟩
  · exact hreads.imp (fun h => ⟨h.1, h.2.1⟩) fun h => ⟨h.1, h.2.1⟩
  · rcases hreads with ⟨hc, -, hread⟩ | ⟨hc, -, hread⟩
    · rw [if_pos hc, hread, Nat.add_zero]
    · rw [if_neg hc, hread]

/-- Where an edge can be taken, a trail takes it. -/
theorem exists_follow (h : a.Advances c t.state t.rest s v) :
    ∃ u, t.follow ⟨c, s⟩ = some u ∧ u.state = s ∧ u.rest = v := by
  rw [follow, if_neg h.ne_reject]
  rcases h.reads with ⟨rfl, rfl⟩ | ⟨hc, hrest⟩
  · rw [if_pos rfl]
    exact ⟨_, rfl, rfl, rfl⟩
  · rw [if_neg hc]
    split
    · rename_i hnil
      rw [hnil] at hrest
      cases hrest
    · rename_i d rest hcons
      cases hcons.symm.trans hrest
      rw [if_pos rfl]
      exact ⟨_, rfl, rfl, rfl⟩

theorem extensions_of_not_bars (h : ¬ a.Bars t.state t.rest) :
    t.extensions a = (a.edgesOf t.state).filterMap t.follow := by
  rw [extensions, if_neg (mt isBarred_iff.mp h)]

theorem exists_mem_extensions (h : a.Advances c t.state t.rest s v) :
    ∃ u ∈ t.extensions a, u.state = s ∧ u.rest = v := by
  rw [extensions_of_not_bars h.not_bars]
  obtain ⟨u, hu, hs, hv⟩ := exists_follow h
  exact ⟨u, List.mem_filterMap.mpr ⟨_, h.edge, hu⟩, hs, hv⟩

/-- A longer trail follows the span if the trail does. -/
theorem Follows.extension (h : t.Follows a span) (hu : u ∈ t.extensions a) :
    u.Follows a span := by
  obtain ⟨c, hadvances, hsteps, hread⟩ := advances_of_mem_extensions hu
  rcases hadvances.reads with ⟨rfl, hrest⟩ | ⟨hc, hrest⟩
  · rw [if_pos rfl, Nat.add_zero] at hread
    refine ⟨by rw [hrest, h.rest_eq, hread], ?_⟩
    have hrun := h.run.append (.silent hadvances.edge (.stay _))
    rwa [List.append_nil, ← List.reverse_cons, ← hsteps, ← hread] at hrun
  · rw [if_neg hc] at hread
    rw [h.rest_eq] at hrest
    have hget : span[t.read]? = some c := by
      rw [← List.head?_drop, hrest, List.head?_cons]
    refine ⟨?_, ?_⟩
    · rw [hread, ← List.drop_drop, hrest, List.drop_succ_cons, List.drop_zero]
    · have htake : span.take u.read = span.take t.read ++ [c] := by
        rw [hread, List.take_add_one, hget]
        rfl
      have hrun := h.run.append (.read hc hadvances.edge (.stay _))
      rwa [← List.reverse_cons, ← hsteps, ← htake] at hrun

end Trail

namespace Automaton

variable {a : Automaton} {limit : Nat} {visited : RankedSet (StateId × Nat)}
  {stack : List (Trail limit)} {s : StateId} {span w : List Symbol} {path : List Step}

/-- What has been visited does not accept, and leads only to what has been visited or is on the
stack. -/
def Handled (a : Automaton) (span : List Symbol) (visited : RankedSet (StateId × Nat))
    (stack : List (Trail limit)) : Prop :=
  ∀ s n, (s, n) ∈ visited → ¬ (span.drop n = [] ∧ a.isFinal s = true) ∧
    ∀ c t v, a.Advances c s (span.drop n) t v →
      (∃ m, (t, m) ∈ visited ∧ span.drop m = v) ∨ ∃ u ∈ stack, u.state = t ∧ u.rest = v

/-- A place that was visited before is passed over. -/
theorem Handled.skip {t : Trail limit} (h : a.Handled span visited (t :: stack))
    (ht : t.Follows a span) (hvisited : t.place ∈ visited) : a.Handled span visited stack := by
  intro s n hn
  refine ⟨(h s n hn).1, fun c t' v hadvances => ?_⟩
  rcases (h s n hn).2 c t' v hadvances with hv | ⟨u, hu, rfl, rfl⟩
  · exact .inl hv
  · rcases List.mem_cons.mp hu with rfl | hu
    · exact .inl ⟨u.read, hvisited, ht.rest_eq.symm⟩
    · exact .inr ⟨u, hu, rfl, rfl⟩

theorem mem_insert_place {t : Trail limit} {n : Nat} : (s, n) ∈ visited.insert t.place ↔
    (s, n) = (t.state, t.read) ∨ (s, n) ∈ visited := by
  rw [Std.TreeSet.mem_insert, Std.LawfulEqCmp.compare_eq_iff_eq, eq_comm]
  rfl

/-- A place that does not accept leads to its extensions. -/
theorem Handled.visit {t : Trail limit} (h : a.Handled span visited (t :: stack))
    (ht : t.Follows a span) (haccept : ¬ t.isAccepting a = true) :
    a.Handled span (visited.insert t.place) (t.extensions a ++ stack) := by
  intro s n hn
  rcases mem_insert_place.mp hn with hn | hn
  · cases hn
    rw [← ht.rest_eq]
    refine ⟨fun hfinal => haccept ?_, fun c t' v hadvances => ?_⟩
    · rw [Trail.isAccepting, hfinal.1, hfinal.2]
      rfl
    · obtain ⟨u, hu, hstate, hrest⟩ := Trail.exists_mem_extensions hadvances
      exact .inr ⟨u, List.mem_append_left _ hu, hstate, hrest⟩
  · refine ⟨(h s n hn).1, fun c t' v hadvances => ?_⟩
    rcases (h s n hn).2 c t' v hadvances with ⟨m, hm, hv⟩ | ⟨u, hu, rfl, rfl⟩
    · exact .inl ⟨m, mem_insert_place.mpr (.inr hm), hv⟩
    · rcases List.mem_cons.mp hu with rfl | hu
      · exact .inl ⟨u.read, mem_insert_place.mpr (.inl rfl), ht.rest_eq.symm⟩
      · exact .inr ⟨u, List.mem_append_right _ hu, rfl, rfl⟩

/-- What does not accept and leads only to itself. -/
structure Closed (a : Automaton) (dead : StateId → List Symbol → Prop) : Prop where
  not_final {s : StateId} : dead s [] → a.isFinal s = false
  advances {c : Symbol} {s t : StateId} {w v : List Symbol} :
    dead s w → a.Advances c s w t v → dead t v

theorem not_finds_of_closed {dead : StateId → List Symbol → Prop} (h : a.Closed dead)
    (hs : dead s w) : ¬ a.Finds s w := by
  intro hfinds
  induction hfinds with
  | stop hfinal =>
    rw [h.not_final hs] at hfinal
    cases hfinal
  | step hadvances _ ih => exact ih (h.advances hs hadvances)

/-- A search without success leaves a closed set that has all that was on the stack. -/
theorem exists_closed_of_search (h : a.search visited stack = none)
    (hfollows : ∀ t ∈ stack, t.Follows a span) (hhandled : a.Handled span visited stack) :
    ∃ dead, a.Closed dead ∧ (∀ s n, (s, n) ∈ visited → dead s (span.drop n)) ∧
      ∀ t ∈ stack, dead t.state t.rest := by
  induction visited, stack using search.induct a with
  | case1 visited =>
    refine ⟨fun s w => ∃ n, (s, n) ∈ visited ∧ span.drop n = w, ⟨?_, ?_⟩, fun s n hn =>
      ⟨n, hn, rfl⟩, fun _ ht => absurd ht List.not_mem_nil⟩
    · rintro s ⟨n, hn, hw⟩
      exact Bool.eq_false_iff.mpr fun hfinal => (hhandled s n hn).1 ⟨hw, hfinal⟩
    · rintro c s t w v ⟨n, hn, rfl⟩ hadvances
      rcases (hhandled s n hn).2 c t v hadvances with hv | ⟨u, hu, -⟩
      · exact hv
      · exact absurd hu List.not_mem_nil
  | case2 visited t stack haccept =>
    rw [search, if_pos haccept] at h
    cases h
  | case3 visited t stack haccept hvisited ih =>
    rw [search, if_neg haccept, if_pos hvisited] at h
    have ht := hfollows t (List.mem_cons_self ..)
    obtain ⟨dead, hclosed, hdead, hstack⟩ := ih h
      (fun u hu => hfollows u (List.mem_cons_of_mem _ hu)) (hhandled.skip ht hvisited)
    refine ⟨dead, hclosed, hdead, List.forall_mem_cons.mpr ⟨?_, hstack⟩⟩
    rw [ht.rest_eq]
    exact hdead _ _ hvisited
  | case4 visited t stack haccept hvisited ih =>
    rw [search, if_neg haccept, if_neg hvisited] at h
    have ht := hfollows t (List.mem_cons_self ..)
    obtain ⟨dead, hclosed, hdead, hstack⟩ := ih h
      (fun u hu => (List.mem_append.mp hu).elim ht.extension fun hu =>
        hfollows u (List.mem_cons_of_mem _ hu)) (hhandled.visit ht haccept)
    refine ⟨dead, hclosed, fun s n hn => hdead s n (mem_insert_place.mpr (.inr hn)),
      List.forall_mem_cons.mpr ⟨?_, fun u hu => hstack u (List.mem_append_right _ hu)⟩⟩
    rw [ht.rest_eq]
    exact hdead _ _ (mem_insert_place.mpr (.inl rfl))

/-- A path that is found follows a trail to where it accepts. -/
theorem run_of_search (h : a.search visited stack = some path)
    (hfollows : ∀ t ∈ stack, t.Follows a span) :
    ∃ s, a.Run start path span s ∧ a.isFinal s = true := by
  induction visited, stack using search.induct a with
  | case1 visited =>
    rw [search] at h
    cases h
  | case2 visited t stack haccept =>
    rw [search, if_pos haccept] at h
    cases h
    have ht := hfollows t (List.mem_cons_self ..)
    rw [Trail.isAccepting, Bool.and_eq_true, List.isEmpty_iff] at haccept
    have hall : span.take t.read = span :=
      List.take_of_length_le (List.drop_eq_nil_iff.mp (ht.rest_eq.symm.trans haccept.1))
    exact ⟨t.state, hall ▸ ht.run, haccept.2⟩
  | case3 visited t stack haccept hvisited ih =>
    rw [search, if_neg haccept, if_pos hvisited] at h
    exact ih h fun u hu => hfollows u (List.mem_cons_of_mem _ hu)
  | case4 visited t stack haccept hvisited ih =>
    rw [search, if_neg haccept, if_neg hvisited] at h
    refine ih h fun u hu => (List.mem_append.mp hu).elim
      (hfollows t (List.mem_cons_self ..)).extension fun hu =>
        hfollows u (List.mem_cons_of_mem _ hu)

theorem follows_start : ∀ t ∈ [(⟨[], start, 0, span, Nat.zero_add _⟩ : Trail span.length)],
    t.Follows a span := by
  intro t ht
  obtain rfl := List.mem_singleton.mp ht
  exact ⟨rfl, .stay start⟩

/-- An accepting path is a run to a final state. -/
theorem run_of_acceptingPath (h : a.acceptingPath span = some path) :
    ∃ s, a.Run start path span s ∧ a.isFinal s = true :=
  run_of_search h follows_start

/-- A path is found if there is one. -/
theorem acceptingPath_isSome_of_finds (h : a.Finds start span) :
    (a.acceptingPath span).isSome = true := by
  rw [Option.isSome_iff_ne_none]
  intro hnone
  obtain ⟨dead, hclosed, -, hstack⟩ := exists_closed_of_search hnone follows_start
    fun s n hn => absurd hn Std.TreeSet.not_mem_emptyc
  exact not_finds_of_closed hclosed (hstack _ (List.mem_singleton.mpr rfl)) h

end Automaton

end SoundChange
