import SoundChange.Proofs.Application.Search

/-!
# Which path the search finds

`Automaton.Takes s w path`: the path goes from the state `s` through the symbols `w` to a final
state, and at each place takes the first edge behind which a final state can be found. There is at
most one such path (`Takes.unique`), and if there is one from the start, the search finds it
(`acceptingPath_of_takes`).

On its way the search comes to two kinds of places: those where no final state can be found, which
it leaves again, and those of the path itself, which do not come again because the path gets shorter
from place to place (`Spent`).
-/

namespace SoundChange.Automaton

variable {a : Automaton} {limit k : Nat} {visited : RankedSet (StateId × Nat)}
  {dead stack : List (Trail limit)} {s : StateId} {span w : List Symbol} {path path' : List Step}

/-- The path takes the first edge, at each place, behind which a final state can be found. -/
inductive Takes (a : Automaton) : StateId → List Symbol → List Step → Prop where
  | stop {s : StateId} : a.isFinal s = true → Takes a s [] []
  | step {s : StateId} {w v : List Symbol} {earlier later : List Edge} {e : Edge}
      {path : List Step} : ¬ (w = [] ∧ a.isFinal s = true) → a.edgesOf s = earlier ++ e :: later →
      (∀ d ∈ earlier, ∀ x, a.Advances d.symbol s w d.target x → ¬ a.Finds d.target x) →
      a.Advances e.symbol s w e.target v → Takes a e.target v path →
      Takes a s w (⟨s, e.symbol⟩ :: path)

theorem Advances.eq_rest {c : Symbol} {t : StateId} {v x : List Symbol} (h : a.Advances c s w t v)
    (h' : a.Advances c s w t x) : v = x := by
  rcases h.reads with ⟨hc, rfl⟩ | ⟨hc, hv⟩ <;> rcases h'.reads with ⟨hc', rfl⟩ | ⟨hc', hx⟩
  · rfl
  · exact absurd hc hc'
  · exact absurd hc' hc
  · exact (List.cons.inj (hv.symm.trans hx)).2

theorem Takes.finds (h : a.Takes s w path) : a.Finds s w := by
  induction h with
  | stop hfinal => exact .stop hfinal
  | step _ _ _ hadvances _ ih => exact .step hadvances ih

/-- Of two elements of a list one comes before the other, or they stand in the same place. -/
theorem eq_or_mem_of_append_cons {α : Type} {xs ys xs' ys' : List α} {x x' : α}
    (h : xs ++ x :: ys = xs' ++ x' :: ys') : x = x' ∨ x ∈ xs' ∨ x' ∈ xs := by
  rcases List.append_eq_append_iff.mp h with ⟨zs, rfl, hzs⟩ | ⟨zs, rfl, hzs⟩
  · cases zs with
    | nil => exact .inl (List.cons.inj hzs).1
    | cons z zs =>
      rw [(List.cons.inj hzs).1]
      exact .inr (.inl (List.mem_append_right _ (List.mem_cons_self ..)))
  · cases zs with
    | nil => exact .inl (List.cons.inj hzs).1.symm
    | cons z zs =>
      rw [(List.cons.inj hzs).1]
      exact .inr (.inr (List.mem_append_right _ (List.mem_cons_self ..)))

theorem Takes.unique (h : a.Takes s w path) (h' : a.Takes s w path') : path = path' := by
  induction h generalizing path' with
  | stop hfinal =>
    cases h' with
    | stop => rfl
    | step hstop => exact absurd ⟨rfl, hfinal⟩ hstop
  | @step s w v earlier later e path hstop hedges hearlier hadvances htakes ih =>
    cases h' with
    | stop hfinal => exact absurd ⟨rfl, hfinal⟩ hstop
    | @step _ _ v' earlier' later' e' path' _ hedges' hearlier' hadvances' htakes' =>
      rcases eq_or_mem_of_append_cons (hedges.symm.trans hedges') with rfl | hmem | hmem
      · obtain rfl := hadvances.eq_rest hadvances'
        rw [ih htakes']
      · exact absurd htakes.finds (hearlier' e hmem v hadvances)
      · exact absurd htakes'.finds (hearlier e' hmem v' hadvances')

/-- At the places visited no final state can be found, or it is found by a path longer than `k`. -/
def Spent (a : Automaton) (span : List Symbol) (visited : RankedSet (StateId × Nat)) (k : Nat) :
    Prop :=
  ∀ s n, (s, n) ∈ visited → ¬ a.Finds s (span.drop n) ∨
    ∃ path, a.Takes s (span.drop n) path ∧ k < path.length

theorem Spent.insert {t : Trail limit} (h : a.Spent span visited k) (ht : t.Follows a span)
    (hplace : ¬ a.Finds t.state t.rest ∨ ∃ path, a.Takes t.state t.rest path ∧ k < path.length) :
    a.Spent span (visited.insert t.place) k := by
  intro s n hn
  rcases mem_insert_place.mp hn with hn | hn
  · cases hn
    rwa [← ht.rest_eq]
  · exact h s n hn

theorem Spent.mono {k' : Nat} (h : a.Spent span visited k) (hk : k' ≤ k) :
    a.Spent span visited k' := fun s n hn =>
  (h s n hn).imp_right fun ⟨path, hpath, hlt⟩ => ⟨path, hpath, Nat.lt_of_le_of_lt hk hlt⟩

theorem finds_of_isAccepting {t : Trail limit} (h : t.isAccepting a = true) :
    a.Finds t.state t.rest := by
  rw [Trail.isAccepting, Bool.and_eq_true, List.isEmpty_iff] at h
  rw [h.1]
  exact .stop h.2

/-- Trails from which no final state can be found are left behind. -/
theorem exists_search_append (stack : List (Trail limit)) (hv : a.Spent span visited k)
    (h : ∀ t ∈ dead, t.Follows a span ∧ ¬ a.Finds t.state t.rest) :
    ∃ visited', a.Spent span visited' k ∧
      a.search visited (dead ++ stack) = a.search visited' stack := by
  generalize hall : dead ++ stack = all
  induction visited, all using search.induct a generalizing dead with
  | case1 visited =>
    obtain ⟨rfl, rfl⟩ := List.append_eq_nil_iff.mp hall
    exact ⟨visited, hv, rfl⟩
  | case2 visited t rest haccept =>
    cases dead with
    | nil => exact ⟨visited, hv, by rw [← hall]; rfl⟩
    | cons u dead =>
      cases hall
      exact absurd (finds_of_isAccepting haccept) (h t (List.mem_cons_self ..)).2
  | case3 visited t rest haccept hvisited ih =>
    cases dead with
    | nil => exact ⟨visited, hv, by rw [← hall]; rfl⟩
    | cons u dead =>
      cases hall
      rw [search, if_neg haccept, if_pos hvisited]
      exact ih hv (fun u hu => h u (List.mem_cons_of_mem _ hu)) rfl
  | case4 visited t rest haccept hvisited ih =>
    cases dead with
    | nil => exact ⟨visited, hv, by rw [← hall]; rfl⟩
    | cons u dead =>
      cases hall
      obtain ⟨ht, hfinds⟩ := h t (List.mem_cons_self ..)
      rw [search, if_neg haccept, if_neg hvisited]
      refine ih (hv.insert ht (.inl hfinds)) (fun u hu => ?_) (List.append_assoc ..)
      rcases List.mem_append.mp hu with hu | hu
      · obtain ⟨c, hadvances, -⟩ := Trail.advances_of_mem_extensions hu
        exact ⟨ht.extension hu, fun hu => hfinds (.step hadvances hu)⟩
      · exact h u (List.mem_cons_of_mem _ hu)

/-- The search goes on along the path that is taken from where it is. -/
theorem search_of_takes (h : a.Takes s w path) {t : Trail limit} (hstate : t.state = s)
    (hrest : t.rest = w) (ht : t.Follows a span) (hv : a.Spent span visited path.length) :
    a.search visited (t :: stack) = some (t.steps.reverse ++ path) := by
  induction h generalizing t visited stack with
  | @stop s hfinal =>
    have haccept : t.isAccepting a = true := by
      rw [Trail.isAccepting, hrest, hstate, hfinal]
      rfl
    rw [search, if_pos haccept, List.append_nil]
  | @step s w v earlier later e path hstop hedges hearlier hadvances htakes ih =>
    subst hstate hrest
    have hall : a.Takes t.state t.rest (⟨t.state, e.symbol⟩ :: path) :=
      .step hstop hedges hearlier hadvances htakes
    have haccept : ¬ t.isAccepting a = true := by
      rw [Trail.isAccepting, Bool.and_eq_true, List.isEmpty_iff]
      exact hstop
    have hvisited : t.place ∉ visited := by
      intro hmem
      rcases hv t.state t.read hmem with hfinds | ⟨path', hpath', hlt⟩
      · exact hfinds (ht.rest_eq ▸ hall.finds)
      · rw [← ht.rest_eq] at hpath'
        rw [hall.unique hpath'] at hlt
        exact Nat.lt_irrefl _ hlt
    obtain ⟨u, hfollow, hstate, hrest⟩ := Trail.exists_follow hadvances
    have hextensions : t.extensions a =
        earlier.filterMap t.follow ++ u :: later.filterMap t.follow := by
      rw [Trail.extensions_of_not_bars hadvances.not_bars, hedges, List.filterMap_append,
        List.filterMap_cons, hfollow]
    have hsteps : u.steps = ⟨t.state, e.symbol⟩ :: t.steps := (Trail.follow_eq_some hfollow).2.2.2
    -- before the edge of the path come trails from which no final state can be found
    have hdead : ∀ x ∈ earlier.filterMap t.follow,
        x.Follows a span ∧ ¬ a.Finds x.state x.rest := by
      intro x hx
      obtain ⟨d, hd, hfollow⟩ := List.mem_filterMap.mp hx
      have hmem : x ∈ t.extensions a := hextensions ▸ List.mem_append_left _ hx
      obtain ⟨hreject, hstate, hreads, -⟩ := Trail.follow_eq_some hfollow
      refine ⟨ht.extension hmem, ?_⟩
      rw [hstate]
      refine hearlier d hd x.rest ⟨hadvances.not_bars, ?_, hreject, ?_⟩
      · rw [hedges]
        exact List.mem_append_left _ hd
      · exact hreads.imp (fun h => ⟨h.1, h.2.1⟩) fun h => ⟨h.1, h.2.1⟩
    have hspent : a.Spent span (visited.insert t.place) path.length :=
      (hv.mono (Nat.le_succ _)).insert ht (.inr ⟨_, hall, Nat.lt_succ_self _⟩)
    obtain ⟨visited', hspent', hsearch⟩ :=
      exists_search_append (u :: (later.filterMap t.follow ++ stack)) hspent hdead
    rw [search, if_neg haccept, if_neg hvisited, hextensions, List.append_assoc, List.cons_append,
      hsearch, ih hstate hrest (ht.extension ?_) hspent', hsteps, List.reverse_cons,
      List.append_assoc, List.singleton_append]
    rw [hextensions]
    exact List.mem_append_right _ (List.mem_cons_self ..)

/-- The search finds the path that is taken from the start. -/
theorem acceptingPath_of_takes (h : a.Takes start span path) :
    a.acceptingPath span = some path :=
  search_of_takes h rfl rfl (follows_start _ (List.mem_singleton.mpr rfl))
    fun _ _ hmem => absurd hmem Std.TreeSet.not_mem_emptyc

end SoundChange.Automaton
