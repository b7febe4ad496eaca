import SoundChange.Proofs.Application.Search
import Mathlib.Data.List.Basic
import Mathlib.Data.Set.Basic

/-!
# The search finds the first of all paths

`Automaton.Admits s w es`: the edges `es` are a path from the state `s` through the symbols `w` that
the search may take. The search gives up every place that it has visited, also the places of the
path that it is on, and an automaton may have silent cycles. Even so it finds a path if there is
one, and the path that it finds is the first of all that come to no place twice
(`Automaton.acceptingPath_eq_some_iff`).

* `Exhausts`: some trails are gone through without success;
* `Seen`: what has been visited leads only to what has been visited, apart from the places of the
  present path, so nothing is lost that keeps off these (`Seen.exists_mem_passed`);
* `Leads`: the path that the search finds from a trail, with the trails that it goes through before
  each edge. No path that keeps off the places behind comes before it (`Leads.first`).
-/

namespace SoundChange

/-- How many symbols are read on an edge of the symbol. -/
def Symbol.width (c : Symbol) : Nat := if c = .lambda then 0 else 1

namespace Automaton

variable {a : Automaton} {limit : Nat} {visited visited' : RankedSet (StateId × Nat)}
  {passed : Set (StateId × Nat)} {stack : List (Trail limit)} {t : Trail limit} {s : StateId}
  {c : Symbol} {e : Edge} {es es' : List Edge} {span w v : List Symbol} {path : List Step} {n : Nat}

/-! ## Paths -/

/-- The edges lead through the symbols to a final state, each out of a state that does not forbid
the symbol ahead, and none to the rejecting state. -/
inductive Admits (a : Automaton) : StateId → List Symbol → List Edge → Prop where
  | stop {s : StateId} : a.isFinal s = true → Admits a s [] []
  | step {s : StateId} {e : Edge} {w v : List Symbol} {es : List Edge} :
      a.Advances e.symbol s w e.target v → Admits a e.target v es → Admits a s w (e :: es)

instance : Decidable (a.Bars s w) :=
  decidable_of_iff ((w.head?.any fun c => ⟨c, reject⟩ ∈ a.edgesOf s) = true) <| by
    rw [Option.any_eq_true]
    exact exists_congr fun c => and_congr_right fun _ => decide_eq_true_iff

instance {t : StateId} : Decidable (a.Advances c s w t v) :=
  decidable_of_iff (¬ a.Bars s w ∧ ⟨c, t⟩ ∈ a.edgesOf s ∧ t ≠ reject ∧
      (c = .lambda ∧ v = w ∨ c ≠ .lambda ∧ w = c :: v))
    ⟨fun h => ⟨h.1, h.2.1, h.2.2.1, h.2.2.2⟩, fun h => ⟨h.not_bars, h.edge, h.ne_reject, h.reads⟩⟩

/-- What is left to read when an edge has been taken. -/
theorem Advances.rest_eq {t : StateId} (h : a.Advances c s w t v) : v = w.drop c.width := by
  rcases h.reads with ⟨hc, rfl⟩ | ⟨hc, rfl⟩
  · rw [Symbol.width, if_pos hc, List.drop_zero]
  · rw [Symbol.width, if_neg hc, List.drop_succ_cons, List.drop_zero]

theorem Advances.drop_eq {t : StateId} (h : a.Advances c s (span.drop n) t v) :
    span.drop (n + c.width) = v := by
  rw [h.rest_eq, List.drop_drop]

theorem admits_nil_iff : a.Admits s w [] ↔ w = [] ∧ a.isFinal s = true := by
  constructor
  · rintro ⟨hfinal⟩
    exact ⟨rfl, hfinal⟩
  · rintro ⟨rfl, hfinal⟩
    exact .stop hfinal

theorem admits_cons_iff : a.Admits s w (e :: es) ↔
    a.Advances e.symbol s w e.target (w.drop e.symbol.width) ∧
      a.Admits e.target (w.drop e.symbol.width) es := by
  constructor
  · rintro ⟨⟩
    rename_i v hadvances hes
    rw [← hadvances.rest_eq]
    exact ⟨hadvances, hes⟩
  · exact fun h => .step h.1 h.2

instance decidableAdmits (a : Automaton) : ∀ (s : StateId) (w : List Symbol) (es : List Edge),
    Decidable (a.Admits s w es)
  | _, _, [] => decidable_of_iff _ admits_nil_iff.symm
  | _, w, e :: es =>
    have := decidableAdmits a e.target (w.drop e.symbol.width) es
    decidable_of_iff _ admits_cons_iff.symm

/-- The steps of a path. -/
def steps (s : StateId) : List Edge → List Step
  | [] => []
  | e :: es => ⟨s, e.symbol⟩ :: steps e.target es

/-- The places that a path comes through; `n` symbols have been read before it. -/
def visits (s : StateId) (n : Nat) : List Edge → List (StateId × Nat)
  | [] => [(s, n)]
  | e :: es => (s, n) :: visits e.target (n + e.symbol.width) es

/-- Where each edge of a path stands among the edges out of its state. -/
def choices (a : Automaton) (s : StateId) : List Edge → List Nat
  | [] => []
  | e :: es => (a.edgesOf s).idxOf e :: choices a e.target es

/-- The first path through a span among those that come to no place twice: at the first edge where
another one differs, its own edge stands before the other. -/
structure IsFirst (a : Automaton) (span : List Symbol) (es : List Edge) : Prop where
  admits : a.Admits start span es
  nodup : (visits start 0 es).Nodup
  first : ∀ es', a.Admits start span es' → (visits start 0 es').Nodup →
    es' = es ∨ a.choices start es < a.choices start es'

theorem mem_visits_self : (s, n) ∈ visits s n es := by
  cases es <;> exact List.mem_cons_self ..

/-- A final state can be found if there is a path to one. -/
theorem finds_iff_exists_admits : a.Finds s w ↔ ∃ es, a.Admits s w es := by
  constructor
  · intro h
    induction h with
    | stop hfinal => exact ⟨[], .stop hfinal⟩
    | @step c s t w v hadvances _ ih =>
      obtain ⟨es, hes⟩ := ih
      exact ⟨⟨c, t⟩ :: es, .step hadvances hes⟩
  · rintro ⟨es, h⟩
    induction h with
    | stop hfinal => exact .stop hfinal
    | step hadvances _ ih => exact .step hadvances ih

end Automaton

namespace Trail

open Automaton

variable {a : Automaton} {limit : Nat} {t u : Trail limit} {e : Edge} {span v : List Symbol}

theorem place_of_follow (h : t.follow e = some u) :
    u.place = (e.target, t.read + e.symbol.width) := by
  obtain ⟨-, hstate, hreads, -⟩ := follow_eq_some h
  rw [place, hstate, Symbol.width]
  rcases hreads with ⟨hc, -, hread⟩ | ⟨hc, -, hread⟩
  · rw [if_pos hc, hread, Nat.add_zero]
  · rw [if_neg hc, hread]

theorem mem_extensions_of_follow (hbars : ¬ a.Bars t.state t.rest) (he : e ∈ a.edgesOf t.state)
    (h : t.follow e = some u) : u ∈ t.extensions a := by
  rw [extensions_of_not_bars hbars]
  exact List.mem_filterMap.mpr ⟨e, he, h⟩

theorem advances_of_follow (hbars : ¬ a.Bars t.state t.rest) (he : e ∈ a.edgesOf t.state)
    (h : t.follow e = some u) : a.Advances e.symbol t.state t.rest e.target u.rest := by
  obtain ⟨hreject, -, hreads, -⟩ := follow_eq_some h
  exact ⟨hbars, he, hreject, hreads.imp (fun h => ⟨h.1, h.2.1⟩) fun h => ⟨h.1, h.2.1⟩⟩

/-- A trail that continues another one does so by an edge. -/
theorem exists_edge_of_extensions {before after : List (Trail limit)}
    (h : t.extensions a = before ++ u :: after) : ¬ a.Bars t.state t.rest ∧
      ∃ earlier e later, a.edgesOf t.state = earlier ++ e :: later ∧
        earlier.filterMap t.follow = before ∧ t.follow e = some u := by
  rw [extensions] at h
  split at h
  · simp at h
  rename_i hbar
  refine ⟨mt isBarred_iff.mpr hbar, ?_⟩
  obtain ⟨edges, rest, hedges, hbefore, hrest⟩ := List.filterMap_eq_append_iff.mp h
  obtain ⟨skipped, e, later, rfl, hskipped, hu, -⟩ := List.filterMap_eq_cons_iff.mp hrest
  refine ⟨edges ++ skipped, e, later, by rw [hedges, List.append_assoc], ?_, hu⟩
  rw [List.filterMap_append, hbefore, List.filterMap_eq_nil_iff.mpr hskipped, List.append_nil]

/-- A trail that accepts nothing stands at a place that accepts nothing. -/
theorem Follows.not_accepts (ht : t.Follows a span) (h : ¬ t.isAccepting a = true) :
    ¬ (span.drop t.read = [] ∧ a.isFinal t.state = true) := by
  rintro ⟨hrest, hfinal⟩
  exact h (by rw [isAccepting, ht.rest_eq, hrest, hfinal]; rfl)

end Trail

namespace Automaton

variable {a : Automaton} {limit : Nat} {visited visited' : RankedSet (StateId × Nat)}
  {passed : Set (StateId × Nat)} {stack : List (Trail limit)} {t : Trail limit} {s : StateId}
  {c : Symbol} {e : Edge} {es es' : List Edge} {span w v : List Symbol} {path : List Step} {n : Nat}

/-! ## Trails gone through without success -/

/-- The trails of a stack are gone through, with all that continue them, and none accepts. -/
inductive Exhausts (a : Automaton) : RankedSet (StateId × Nat) → List (Trail limit) →
    RankedSet (StateId × Nat) → Prop where
  | nil {visited : RankedSet (StateId × Nat)} : Exhausts a visited [] visited
  | again {visited visited' : RankedSet (StateId × Nat)} {t : Trail limit}
      {stack : List (Trail limit)} : ¬ t.isAccepting a = true → t.place ∈ visited →
      Exhausts a visited stack visited' → Exhausts a visited (t :: stack) visited'
  | visit {visited visited' : RankedSet (StateId × Nat)} {t : Trail limit}
      {stack : List (Trail limit)} : ¬ t.isAccepting a = true → t.place ∉ visited →
      Exhausts a (visited.insert t.place) (t.extensions a ++ stack) visited' →
      Exhausts a visited (t :: stack) visited'

theorem Exhausts.mem_of_mem (h : a.Exhausts visited stack visited') {place : StateId × Nat}
    (hplace : place ∈ visited) : place ∈ visited' := by
  induction h with
  | nil => exact hplace
  | again _ _ _ ih => exact ih hplace
  | visit _ _ _ ih => exact ih (mem_insert_place.mpr (.inr hplace))

/-- All trails have been visited, and none of them accepts. -/
theorem Exhausts.mem_of_mem_stack (h : a.Exhausts visited stack visited') (ht : t ∈ stack) :
    ¬ t.isAccepting a = true ∧ t.place ∈ visited' := by
  induction h with
  | nil => cases ht
  | again haccept hvisited hrest ih =>
    rcases List.mem_cons.mp ht with rfl | ht
    · exact ⟨haccept, hrest.mem_of_mem hvisited⟩
    · exact ih ht
  | visit haccept hvisited hrest ih =>
    rcases List.mem_cons.mp ht with rfl | ht
    · exact ⟨haccept, hrest.mem_of_mem (mem_insert_place.mpr (.inl rfl))⟩
    · exact ih (List.mem_append_right _ ht)

/-- The place does not accept and leads only to places that have been visited. -/
structure Settled (a : Automaton) (span : List Symbol) (visited : RankedSet (StateId × Nat))
    (s : StateId) (n : Nat) : Prop where
  not_accepts : ¬ (span.drop n = [] ∧ a.isFinal s = true)
  advances {c : Symbol} {t : StateId} {v : List Symbol} :
    a.Advances c s (span.drop n) t v → (t, n + c.width) ∈ visited

theorem Settled.mono (h : a.Settled span visited s n)
    (hsub : ∀ place ∈ visited, place ∈ visited') : a.Settled span visited' s n :=
  ⟨h.not_accepts, fun hadvances => hsub _ (h.advances hadvances)⟩

/-- What the search has come to is settled when it is through. -/
theorem Exhausts.settled (h : a.Exhausts visited stack visited')
    (hfollows : ∀ t ∈ stack, t.Follows a span) (hmem : (s, n) ∈ visited') :
    (s, n) ∈ visited ∨ a.Settled span visited' s n := by
  induction h with
  | nil => exact .inl hmem
  | again _ _ _ ih => exact ih (fun u hu => hfollows u (List.mem_cons_of_mem _ hu)) hmem
  | @visit visited visited' t stack haccept _ hrest ih =>
    have ht := hfollows t (List.mem_cons_self ..)
    have hlater : ∀ u ∈ t.extensions a ++ stack, u.Follows a span := fun u hu =>
      (List.mem_append.mp hu).elim ht.extension fun hu => hfollows u (List.mem_cons_of_mem _ hu)
    refine (ih hlater hmem).elim (fun hinsert => ?_) .inr
    rcases mem_insert_place.mp hinsert with heq | hvisited
    · cases heq
      refine .inr ⟨ht.not_accepts haccept, fun {c t' v} hadvances => ?_⟩
      rw [← ht.rest_eq] at hadvances
      obtain ⟨u, hfollow, -⟩ := Trail.exists_follow hadvances
      have hu := Trail.mem_extensions_of_follow hadvances.not_bars hadvances.edge hfollow
      have hvisited := (hrest.mem_of_mem_stack (List.mem_append_left _ hu)).2
      rwa [Trail.place_of_follow hfollow] at hvisited
    · exact .inl hvisited

/-! ## What has been visited -/

/-- What has been visited does not accept; it leads only to what has been visited, apart from the
places that the present path has come through. -/
structure Seen (a : Automaton) (span : List Symbol) (visited : RankedSet (StateId × Nat))
    (passed : Set (StateId × Nat)) : Prop where
  not_accepts {s : StateId} {n : Nat} :
    (s, n) ∈ visited → ¬ (span.drop n = [] ∧ a.isFinal s = true)
  settled {s : StateId} {n : Nat} :
    (s, n) ∈ visited → (s, n) ∈ passed ∨ a.Settled span visited s n

theorem seen_empty : a.Seen span ∅ passed :=
  ⟨fun h => absurd h Std.TreeSet.not_mem_emptyc, fun h => absurd h Std.TreeSet.not_mem_emptyc⟩

/-- A path from a place that has been visited comes through one that the present path has come
through. -/
theorem Seen.exists_mem_passed (h : a.Seen span visited passed) (hmem : (s, n) ∈ visited)
    (hes : a.Admits s (span.drop n) es) : ∃ place ∈ visits s n es, place ∈ passed := by
  generalize hw : span.drop n = w at hes
  induction hes generalizing n with
  | stop hfinal => exact absurd ⟨hw, hfinal⟩ (h.not_accepts hmem)
  | step hadvances _ ih =>
    rcases h.settled hmem with hpassed | hsettled
    · exact ⟨_, mem_visits_self, hpassed⟩
    · subst hw
      obtain ⟨place, hplace, hpassed⟩ := ih (hsettled.advances hadvances) hadvances.drop_eq
      exact ⟨place, List.mem_cons_of_mem _ hplace, hpassed⟩

/-- The search goes on behind a trail when those that continue it by some edges have been gone
through; from then on the place of the trail is passed. -/
theorem Seen.exhausts {edges : List Edge} (h : a.Seen span visited passed) (ht : t.Follows a span)
    (haccept : ¬ t.isAccepting a = true) (hbars : ¬ a.Bars t.state t.rest)
    (hedges : edges ⊆ a.edgesOf t.state)
    (hrest : a.Exhausts (visited.insert t.place) (edges.filterMap t.follow) visited') :
    a.Seen span visited' (insert t.place passed) := by
  have hstack : ∀ u ∈ edges.filterMap t.follow, u.Follows a span := by
    intro u hu
    obtain ⟨e, he, hfollow⟩ := List.mem_filterMap.mp hu
    exact ht.extension (Trail.mem_extensions_of_follow hbars (hedges he) hfollow)
  refine ⟨fun hmem => ?_, fun hmem => ?_⟩
  · rcases hrest.settled hstack hmem with hinsert | hsettled
    · rcases mem_insert_place.mp hinsert with heq | hvisited
      · cases heq
        exact ht.not_accepts haccept
      · exact h.not_accepts hvisited
    · exact hsettled.not_accepts
  · rcases hrest.settled hstack hmem with hinsert | hsettled
    · rcases mem_insert_place.mp hinsert with heq | hvisited
      · exact .inl (.inl heq)
      · refine (h.settled hvisited).imp .inr fun hsettled => hsettled.mono fun place hplace => ?_
        exact hrest.mem_of_mem (mem_insert_place.mpr (.inr hplace))
    · exact .inr hsettled

/-! ## The path that is found -/

/-- The search finds the path from a trail: the trails that begin with earlier edges are gone
through without success. -/
inductive Leads (a : Automaton) : RankedSet (StateId × Nat) → Trail limit → List Edge → Prop where
  | stop {visited : RankedSet (StateId × Nat)} {t : Trail limit} :
      t.isAccepting a = true → Leads a visited t []
  | step {visited visited' : RankedSet (StateId × Nat)} {t u : Trail limit}
      {earlier later : List Edge} {e : Edge} {es : List Edge} : ¬ t.isAccepting a = true →
      t.place ∉ visited → ¬ a.Bars t.state t.rest → a.edgesOf t.state = earlier ++ e :: later →
      a.Exhausts (visited.insert t.place) (earlier.filterMap t.follow) visited' →
      t.follow e = some u → Leads a visited' u es → Leads a visited t (e :: es)

/-- A search with success goes through some trails and finds a path from the next one. -/
theorem exists_leads_of_search (h : a.search visited stack = some path) :
    ∃ before t after visited' es, stack = before ++ t :: after ∧
      a.Exhausts visited before visited' ∧ a.Leads visited' t es ∧
      path = t.steps.reverse ++ steps t.state es := by
  induction visited, stack using search.induct a with
  | case1 visited =>
    rw [search] at h
    cases h
  | case2 visited t stack haccept =>
    rw [search, if_pos haccept] at h
    cases h
    exact ⟨[], t, stack, visited, [], rfl, .nil, .stop haccept, (List.append_nil _).symm⟩
  | case3 visited t stack haccept hvisited ih =>
    rw [search, if_neg haccept, if_pos hvisited] at h
    obtain ⟨before, u, after, visited', es, rfl, hbefore, hes⟩ := ih h
    exact ⟨t :: before, u, after, visited', es, rfl, .again haccept hvisited hbefore, hes⟩
  | case4 visited t stack haccept hvisited ih =>
    rw [search, if_neg haccept, if_neg hvisited] at h
    obtain ⟨before, u, after, visited', es, hsplit, hbefore, hes, rfl⟩ := ih h
    rcases List.append_eq_append_iff.mp hsplit with ⟨zs, rfl, hzs⟩ | ⟨zs, hextensions, hzs⟩
    · exact ⟨t :: zs, u, after, visited', es, by rw [hzs]; rfl, .visit haccept hvisited hbefore,
        hes, rfl⟩
    cases zs with
    | nil =>
      rw [List.nil_append] at hzs
      rw [List.append_nil] at hextensions
      refine ⟨[t], u, after, visited', es, by rw [← hzs]; rfl, .visit haccept hvisited ?_, hes, rfl⟩
      rwa [List.append_nil, hextensions]
    | cons x zs =>
      obtain rfl : u = x := (List.cons.inj hzs).1
      obtain ⟨hbars, earlier, e, later, hedges, hearlier, hfollow⟩ :=
        Trail.exists_edge_of_extensions hextensions
      obtain ⟨-, hstate, -, hsteps⟩ := Trail.follow_eq_some hfollow
      refine ⟨[], t, stack, visited, e :: es, rfl, .nil,
        .step haccept hvisited hbars hedges (hearlier ▸ hbefore) hfollow hes, ?_⟩
      rw [hsteps, hstate, List.reverse_cons, List.append_assoc]
      rfl

/-- The path that is found is one that the search may take. It comes through no place twice, nor
through one that has been visited before. -/
theorem Leads.admits (h : a.Leads visited t es) (ht : t.Follows a span)
    (hseen : a.Seen span visited passed) : a.Admits t.state t.rest es ∧
      (visits t.state t.read es).Nodup ∧ ∀ place ∈ visits t.state t.read es, place ∉ visited := by
  induction h generalizing passed with
  | @stop visited t haccept =>
    rw [Trail.isAccepting, Bool.and_eq_true, List.isEmpty_iff] at haccept
    rw [haccept.1]
    refine ⟨.stop haccept.2, List.pairwise_singleton .., fun place hplace hvisited => ?_⟩
    rw [List.mem_singleton.mp hplace] at hvisited
    exact hseen.not_accepts hvisited ⟨ht.rest_eq ▸ haccept.1, haccept.2⟩
  | @step visited visited' t u earlier later e es haccept hvisited hbars hedges hearlier hfollow _
      ih =>
    have he : e ∈ a.edgesOf t.state := hedges ▸ List.mem_append_right _ (List.mem_cons_self ..)
    have hlater := hseen.exhausts ht haccept hbars (hedges ▸ List.subset_append_left ..) hearlier
    obtain ⟨hadmits, hnodup, hfresh⟩ :=
      ih (ht.extension (Trail.mem_extensions_of_follow hbars he hfollow)) hlater
    obtain ⟨hstate, hread⟩ := Prod.mk.inj (Trail.place_of_follow hfollow)
    rw [hstate] at hadmits
    rw [hstate, hread] at hnodup hfresh
    refine ⟨.step (Trail.advances_of_follow hbars he hfollow) hadmits,
      List.nodup_cons.mpr ⟨fun hmem => ?_, hnodup⟩, List.forall_mem_cons.mpr ⟨hvisited, ?_⟩⟩
    · exact hfresh _ hmem (hearlier.mem_of_mem (mem_insert_place.mpr (.inl rfl)))
    · exact fun place hplace hvisited =>
        hfresh place hplace (hearlier.mem_of_mem (mem_insert_place.mpr (.inr hvisited)))

/-- No trail is gone through without success and found a path from. -/
theorem Leads.notMem_stack (h : a.Leads visited' t es)
    (hstack : a.Exhausts visited stack visited') : t ∉ stack := by
  intro hmem
  obtain ⟨haccept, hvisited⟩ := hstack.mem_of_mem_stack hmem
  cases h with
  | stop h => exact haccept h
  | step _ h => exact h hvisited

/-- A path that keeps off the places passed, and comes through no place twice, is the path that is
found or comes after it. -/
theorem Leads.first (h : a.Leads visited t es) (ht : t.Follows a span)
    (hseen : a.Seen span visited passed) (hes' : a.Admits t.state t.rest es')
    (hnodup : (visits t.state t.read es').Nodup)
    (hpassed : ∀ place ∈ visits t.state t.read es', place ∉ passed) :
    es' = es ∨ a.choices t.state es < a.choices t.state es' := by
  induction h generalizing passed es' with
  | stop =>
    cases es' with
    | nil => exact .inl rfl
    | cons => exact .inr .nil
  | @step visited visited' t u earlier later e es haccept hvisited hbars hedges hearlier hfollow
      hleads ih =>
    have he : e ∈ a.edgesOf t.state := hedges ▸ List.mem_append_right _ (List.mem_cons_self ..)
    have hlater := hseen.exhausts ht haccept hbars (hedges ▸ List.subset_append_left ..) hearlier
    have hnew : e ∉ earlier := fun hmem =>
      hleads.notMem_stack hearlier (List.mem_filterMap.mpr ⟨e, hmem, hfollow⟩)
    have hrank : (a.edgesOf t.state).idxOf e = earlier.length := by
      rw [hedges, List.idxOf_append_of_notMem hnew, List.idxOf_cons_self, Nat.add_zero]
    generalize hrest : t.rest = w at hes'
    cases hes' with
    | stop hfinal => exact absurd ⟨ht.rest_eq ▸ hrest, hfinal⟩ (ht.not_accepts haccept)
    | @step _ e' _ v es' hadvances hes' =>
      subst hrest
      obtain ⟨hfresh, hnodup⟩ := List.nodup_cons.mp hnodup
      obtain ⟨-, hpassed⟩ := List.forall_mem_cons.mp hpassed
      have hpassed : ∀ place ∈ visits e'.target (t.read + e'.symbol.width) es',
          place ∉ insert t.place passed := by
        rintro place hplace (rfl | hmem)
        · exact hfresh hplace
        · exact hpassed place hplace hmem
      obtain ⟨u', hfollow', hstate', hrest'⟩ := Trail.exists_follow hadvances
      by_cases hmem : e' ∈ earlier
      · -- behind an earlier edge all has been visited, so the path would have to come back
        have hvisited' := (hearlier.mem_of_mem_stack
          (List.mem_filterMap.mpr ⟨e', hmem, hfollow'⟩)).2
        rw [Trail.place_of_follow hfollow'] at hvisited'
        rw [ht.rest_eq] at hadvances
        rw [← hadvances.drop_eq] at hes'
        obtain ⟨place, hplace, hback⟩ := hlater.exists_mem_passed hvisited' hes'
        exact absurd hback (hpassed place hplace)
      by_cases heq : e' = e
      · subst heq
        obtain rfl : u = u' := Option.some.inj (hfollow.symm.trans hfollow')
        obtain ⟨hstate, hread⟩ := Prod.mk.inj (Trail.place_of_follow hfollow)
        rw [← hstate] at hes' hnodup hpassed
        rw [← hread] at hnodup hpassed
        rw [← hrest'] at hes'
        refine (ih (ht.extension (Trail.mem_extensions_of_follow hbars he hfollow)) hlater hes'
          hnodup hpassed).imp (fun h => by rw [h]) fun h => ?_
        rw [hstate] at h
        exact .cons h
      · refine .inr (.rel ?_)
        rw [hrank, hedges, List.idxOf_append_of_notMem hmem, List.idxOf_cons_ne _ (Ne.symm heq)]
        omega

/-! ## Accepting paths -/

/-- The path that the search finds through a span is the first of all. -/
theorem exists_isFirst_of_acceptingPath (h : a.acceptingPath span = some path) :
    ∃ es, path = steps start es ∧ a.IsFirst span es := by
  obtain ⟨before, t, after, visited', es, hstack, hbefore, hleads, rfl⟩ := exists_leads_of_search h
  have hsingle : before = [] ∧ t = ⟨[], start, 0, span, Nat.zero_add _⟩ := by
    cases before with
    | nil => exact ⟨rfl, (List.cons.inj hstack).1.symm⟩
    | cons => simp at hstack
  obtain ⟨rfl, rfl⟩ := hsingle
  cases hbefore
  have hfollows : Trail.Follows a span (⟨[], start, 0, span, Nat.zero_add _⟩ : Trail span.length) :=
    follows_start _ (List.mem_singleton.mpr rfl)
  have hseen : a.Seen span ∅ ∅ := seen_empty
  obtain ⟨hadmits, hnodup, -⟩ := hleads.admits hfollows hseen
  exact ⟨es, rfl, hadmits, hnodup, fun es' hes' hnodup' =>
    hleads.first hfollows hseen hes' hnodup' fun _ _ => Set.notMem_empty _⟩

/-- There is only one first path. -/
theorem IsFirst.unique (h : a.IsFirst span es) (h' : a.IsFirst span es') : es = es' := by
  rcases h.first es' h'.admits h'.nodup with heq | hlt
  · exact heq.symm
  · rcases h'.first es h.admits h.nodup with heq | hlt'
    · exact heq
    · exact absurd hlt' (List.lt_asymm hlt)

/-- The search finds a path through a span if there is one, and it finds the first one of those that
come to no place twice. -/
theorem acceptingPath_eq_some_iff :
    ((a.acceptingPath span).isSome = true ↔ ∃ es, a.Admits start span es) ∧
      ∀ path, a.acceptingPath span = some path ↔
        ∃ es, path = steps start es ∧ a.IsFirst span es := by
  have hsome : (a.acceptingPath span).isSome = true ↔ ∃ es, a.Admits start span es := by
    constructor
    · intro h
      obtain ⟨path, hpath⟩ := Option.isSome_iff_exists.mp h
      obtain ⟨es, -, hfirst⟩ := exists_isFirst_of_acceptingPath hpath
      exact ⟨es, hfirst.admits⟩
    · exact fun h => acceptingPath_isSome_of_finds (finds_iff_exists_admits.mpr h)
  refine ⟨hsome, fun path => ⟨exists_isFirst_of_acceptingPath, ?_⟩⟩
  rintro ⟨es, rfl, hfirst⟩
  obtain ⟨path, hpath⟩ := Option.isSome_iff_exists.mp (hsome.mpr ⟨es, hfirst.admits⟩)
  obtain ⟨es', rfl, hfirst'⟩ := exists_isFirst_of_acceptingPath hpath
  rw [hpath, hfirst'.unique hfirst]

end Automaton

end SoundChange
