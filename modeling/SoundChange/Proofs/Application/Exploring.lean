import SoundChange.Proofs.Application.Preference
import SoundChange.Proofs.Application.Trace
import SoundChange.Proofs.Rule.Ways

/-!
# Ways that are tried

`Automaton.Explores a f s t n n'`: from `s` on the automaton tries the ways `f`, and goes on from
`t` with what a way leaves. A path that is taken from `t` behind the first way that allows it is
part of a path taken from `s`, and between the two it adds the pieces of that way to the output.

Explorations follow one another (`Explores.append`), and where a state has several states silently
ahead of it, their ways are tried one after the other (`Explores.of_forks`).
-/

namespace SoundChange

namespace Automaton

open Layout (silent)
open Output (Emits)

variable {a : Automaton} {s t r : StateId} {n n' k : Nat} {v w : List Symbol} {b : Arc}
  {arcs before after : List Arc} {default : Option TransformId} {path rest : List Step}
  {f g : Ways}

/-! ## The first arc that can be taken -/

theorem Finds.not_bars (h : a.Finds s w) : ¬ a.Bars s w := by
  cases h with
  | stop =>
    rintro ⟨c, hc, -⟩
    cases hc
  | step hadvances => exact hadvances.not_bars

/-- What is found from a state that is not final is found along one of its arcs. -/
theorem exists_arc_of_finds (hview : a.view s = { arcs, default }) (h : a.Finds s w) :
    ∃ b ∈ arcs, w ∈ a.findingsAlong b := by
  obtain rfl : a.arcs s = arcs := congrArg View.arcs hview
  cases h with
  | stop hfinal => exact absurd ((congrArg View.isFinal hview).symm.trans hfinal) nofun
  | step hadvances hfinds =>
    obtain ⟨b, hb, rfl, rfl⟩ := mem_edgesOf_iff.mp hadvances.edge
    refine ⟨b, hb, mem_letter_mul.mpr ?_⟩
    rcases hadvances.reads with ⟨hc, rfl⟩ | ⟨hc, rfl⟩
    · exact .inl ⟨hc, hfinds⟩
    · exact .inr ⟨hc, _, hfinds, rfl⟩

theorem finds_iff_of_final (hview : a.view s = { isFinal := true }) : a.Finds s w ↔ w = [] := by
  refine ⟨fun h => ?_, ?_⟩
  · have hw : w ∈ a.futures s := findings_le_futures h
    rwa [futures_of_final hview, Language.mem_one] at hw
  · rintro rfl
    exact .stop (congrArg View.isFinal hview)

theorem attached_of_mem (hview : a.view s = { arcs, default }) (hb : b ∈ arcs) :
    a.attached? s b.symbol = b.transform := by
  obtain rfl : a.arcs s = arcs := congrArg View.arcs hview
  exact (mem_arcs.mp hb).2

/-- A path goes on through an arc if nothing is found along the arcs before it. -/
theorem takes_of_arc (hreject : a.view reject = {})
    (hview : a.view s = { arcs := before ++ b :: after, default }) (hbars : ¬ a.Bars s w)
    (hbefore : ∀ d ∈ before, w ∉ a.findingsAlong d) (hw : w = b.reads ++ v)
    (h : a.Takes b.target v path) : a.Takes s w (⟨s, b.symbol⟩ :: path) := by
  have harcs : a.arcs s = before ++ b :: after := congrArg View.arcs hview
  have hfinal : a.isFinal s = false := congrArg View.isFinal hview
  have hb : b ∈ a.arcs s := harcs ▸ List.mem_append_right _ (List.mem_cons_self ..)
  have hedges := edgesOf_of_view hview
  rw [List.map_append, List.map_cons] at hedges
  refine .step (fun h => Bool.false_ne_true (hfinal.symm.trans h.2)) hedges ?_
    ⟨hbars, (mem_arcs.mp hb).1, ne_reject_of_finds hreject h.finds, ?_⟩ h
  · intro e he x hadvances hfinds
    obtain ⟨d, hd, rfl⟩ := List.mem_map.mp he
    refine hbefore d hd (mem_letter_mul.mpr ?_)
    rcases hadvances.reads with ⟨hc, rfl⟩ | ⟨hc, hx⟩
    · exact .inl ⟨hc, hfinds⟩
    · exact .inr ⟨hc, x, hfinds, hx⟩
  · rw [Arc.reads] at hw
    split at hw
    · rename_i hc
      exact .inl ⟨hc, hw.symm⟩
    · rename_i hc
      exact .inr ⟨hc, hw⟩

/-- In an open state no arc is forbidden. -/
theorem Open.takes (hopen : a.Open s) (hreject : a.view reject = {})
    (hview : a.view s = { arcs := before ++ b :: after, default })
    (hbefore : ∀ d ∈ before, w ∉ a.findingsAlong d) (hw : w = b.reads ++ v)
    (h : a.Takes b.target v path) : a.Takes s w (⟨s, b.symbol⟩ :: path) := by
  refine takes_of_arc hreject hview (hopen.not_bars ?_) hbefore hw h
  have hv := lambda_notMem_of_finds h.finds
  rw [hw, Arc.reads]
  split
  · exact hv
  · rename_i hc
    rw [List.singleton_append, List.mem_cons]
    exact fun h => h.elim (fun h => hc h.symm) hv

/-- The only arc of a state is taken. -/
theorem takes_of_only (hreject : a.view reject = {}) (hview : a.view s = { arcs := [b], default })
    (h : a.Takes b.target v path) : a.Takes s (b.reads ++ v) (⟨s, b.symbol⟩ :: path) := by
  have hopen : a.Open s := by
    intro d hd _
    rw [show a.arcs s = [b] from congrArg View.arcs hview, List.mem_singleton] at hd
    exact hd ▸ ne_reject_of_finds hreject h.finds
  have hall : a.view s = { arcs := [] ++ b :: [], default } := hview
  exact hopen.takes hreject hall nofun rfl h

/-! ## Explorations -/

open scoped Classical in
/-- The first of some ways behind which a final state is found from `t`. -/
noncomputable def firstFinding (a : Automaton) (t : StateId)
    (ways : List (List Piece × List Symbol)) : Option (List Piece × List Symbol) :=
  ways.find? fun x => decide (a.Finds t x.2)

section FirstFinding

variable {x y : List Piece × List Symbol} {xs ys : List (List Piece × List Symbol)}

theorem firstFinding_eq_none : a.firstFinding t xs = none ↔ ∀ x ∈ xs, ¬ a.Finds t x.2 := by
  simp [firstFinding]

theorem firstFinding_append :
    a.firstFinding t (xs ++ ys) = (a.firstFinding t xs).or (a.firstFinding t ys) :=
  List.find?_append

theorem firstFinding_singleton (h : a.firstFinding t [x] = some y) : x = y := by
  rw [firstFinding, List.find?_singleton] at h
  split at h
  · exact Option.some.inj h
  · cases h

theorem firstFinding_cons (h : a.Finds t x.2) : a.firstFinding t (x :: xs) = some x := by
  rw [firstFinding, List.find?_cons_of_pos (by simpa using h)]

/-- A final state without arcs is found where nothing is left. -/
theorem firstFinding_of_final (hview : a.view t = { isFinal := true }) :
    a.firstFinding t xs = xs.find? (·.2.isEmpty) := by
  rw [firstFinding]
  refine congrArg (xs.find? ·) (funext fun x => ?_)
  rw [Bool.eq_iff_iff, List.isEmpty_iff, ← finds_iff_of_final hview]
  simp

end FirstFinding

/-- From one state on the automaton tries some ways in their order, and comes to another one with
what they leave. -/
structure Explores (a : Automaton) (f : Ways) (s t : StateId) (n n' : Nat) : Prop where
  le : n ≤ n'
  finds {w : List Symbol} : a.Finds s w → ∃ x ∈ f w, a.Finds t x.2
  takes {w : List Symbol} {x : List Piece × List Symbol} {rest : List Step} :
    a.firstFinding t (f w) = some x → a.Takes t x.2 rest →
    ∃ p, a.Takes s w (p ++ rest) ∧ Emits a n n' p x.1

namespace Explores

theorem nothing : a.Explores .nothing s s n n where
  le := Nat.le_refl n
  finds h := ⟨_, List.mem_singleton.mpr rfl, h⟩
  takes hx h := by
    obtain rfl := firstFinding_singleton hx
    exact ⟨[], h, Output.emits_nil (Nat.le_refl n)⟩

theorem mono {l l' : Nat} (h : a.Explores f s t n n') (hl : l ≤ n) (hl' : n' ≤ l') :
    a.Explores f s t l l' where
  le := hl.trans (h.le.trans hl')
  finds := h.finds
  takes hx hrest := by
    obtain ⟨p, hp, hemits⟩ := h.takes hx hrest
    exact ⟨p, hp, hemits.mono hl hl'⟩

theorem append (h : a.Explores f s t n k) (h' : a.Explores g t r k n') :
    a.Explores (f.followedBy g) s r n n' where
  le := h.le.trans h'.le
  finds hw := by
    obtain ⟨x, hx, hfinds⟩ := h.finds hw
    obtain ⟨y, hy, hfinds⟩ := h'.finds hfinds
    exact ⟨_, List.mem_flatMap.mpr ⟨x, hx, List.mem_map_of_mem hy⟩, hfinds⟩
  takes {w z rest} hz hrest := by
    rw [firstFinding, Ways.followedBy, List.find?_flatMap, List.findSome?_eq_some_iff] at hz
    obtain ⟨before, x, after, hxs, hx, hbefore⟩ := hz
    rw [List.find?_map, Option.map_eq_some_iff] at hx
    obtain ⟨y, hy, rfl⟩ := hx
    obtain ⟨q, hq, hemits'⟩ := h'.takes hy hrest
    -- behind the ways before this one nothing is found, whatever way of `g` goes on
    have hfirst : a.firstFinding t (f w) = some x := by
      rw [hxs, firstFinding_append, firstFinding_cons hq.finds, firstFinding_eq_none.mpr,
        Option.none_or]
      intro d hd hfinds
      obtain ⟨y, hy, hfinds⟩ := h'.finds hfinds
      have hnone := List.find?_eq_none.mp (hbefore d hd) _ (List.mem_map_of_mem hy)
      exact hnone (by simpa using hfinds)
    obtain ⟨p, hp, hemits⟩ := h.takes hfirst hq
    exact ⟨p ++ q, by rwa [List.append_assoc], hemits.append hemits'⟩

/-- A silent arc adds nothing. -/
theorem silent (h : a.Explores f s t n n') (hreject : a.view reject = {})
    (hview : a.view t = { arcs := [Layout.silent r] }) : a.Explores f s r n n' := by
  have hpass : a.Explores .nothing t r n' n' := by
    refine ⟨Nat.le_refl _, fun hw => ?_, fun hx hrest => ?_⟩
    · obtain ⟨b, hb, hw⟩ := exists_arc_of_finds hview hw
      obtain rfl := List.mem_singleton.mp hb
      rw [findingsAlong_silent] at hw
      exact ⟨_, List.mem_singleton.mpr rfl, hw⟩
    · obtain rfl := firstFinding_singleton hx
      exact ⟨[_], takes_of_only hreject hview hrest,
        Output.emits_silent (congrArg View.default hview)⟩
  have hall := h.append hpass
  rwa [Ways.followedBy_nothing] at hall

end Explores

/-! ## Several states ahead -/

/-- Some states whose ways are tried one after the other. -/
inductive ExploresAny (a : Automaton) (t : StateId) (n n' : Nat) : Ways → List StateId → Prop where
  | nil : ExploresAny a t n n' .none []
  | cons {f g : Ways} {s : StateId} {forks : List StateId} : a.Explores f s t n n' →
      ExploresAny a t n n' g forks → ExploresAny a t n n' (f.orElse g) (s :: forks)

section Forks

variable {forks : List StateId}

theorem ExploresAny.mono {l l' : Nat} (h : a.ExploresAny t n n' f forks) (hl : l ≤ n)
    (hl' : n' ≤ l') : a.ExploresAny t l l' f forks := by
  induction h with
  | nil => exact .nil
  | cons h _ ih => exact .cons (h.mono hl hl') ih

theorem ExploresAny.finds (h : a.ExploresAny t n n' f forks) (hs : s ∈ forks) (hw : a.Finds s w) :
    ∃ x ∈ f w, a.Finds t x.2 := by
  induction h with
  | nil => cases hs
  | cons h _ ih =>
    rcases List.mem_cons.mp hs with rfl | hs
    · obtain ⟨x, hx, hfinds⟩ := h.finds hw
      exact ⟨x, List.mem_append_left _ hx, hfinds⟩
    · obtain ⟨x, hx, hfinds⟩ := ih hs
      exact ⟨x, List.mem_append_right _ hx, hfinds⟩

/-- The first way belongs to the first state from which a final one is found. -/
theorem ExploresAny.takes {x : List Piece × List Symbol} (h : a.ExploresAny t n n' f forks)
    (hx : a.firstFinding t (f w) = some x) (hrest : a.Takes t x.2 rest) :
    ∃ before s after p, forks = before ++ s :: after ∧ (∀ d ∈ before, ¬ a.Finds d w) ∧
      a.Takes s w (p ++ rest) ∧ Emits a n n' p x.1 := by
  induction h with
  | nil => cases hx
  | @cons f g s forks h _ ih =>
    rw [Ways.orElse, firstFinding_append, Option.or_eq_some_iff] at hx
    rcases hx with hx | ⟨hnone, hx⟩
    · obtain ⟨p, hp, hemits⟩ := h.takes hx hrest
      exact ⟨[], s, forks, p, rfl, nofun, hp, hemits⟩
    · obtain ⟨before, s', after, p, rfl, hbefore, hp, hemits⟩ := ih hx
      refine ⟨s :: before, s', after, p, rfl, List.forall_mem_cons.mpr ⟨fun hw => ?_, hbefore⟩, hp,
        hemits⟩
      obtain ⟨y, hy, hfinds⟩ := h.finds hw
      exact firstFinding_eq_none.mp hnone y hy hfinds

/-- The arcs lead silently to some states, in their order, and otherwise to the rejecting one. -/
structure Forks (arcs : List Arc) (forks : List StateId) : Prop where
  leads : ∀ b ∈ arcs, (∃ s ∈ forks, b = Layout.silent s) ∨ b.target = reject
  split {before after : List StateId} {s : StateId} : forks = before ++ s :: after → s ∉ before →
    ∃ earlier later, arcs = earlier ++ Layout.silent s :: later ∧
      ∀ b ∈ earlier, ∃ d ∈ before, b = Layout.silent d

theorem forks_silent : Forks (forks.map Layout.silent) forks where
  leads b hb := by
    obtain ⟨s, hs, rfl⟩ := List.mem_map.mp hb
    exact .inl ⟨s, hs, rfl⟩
  split {before after s} h _ := by
    refine ⟨before.map Layout.silent, after.map Layout.silent, ?_, fun b hb => ?_⟩
    · rw [h, List.map_append, List.map_cons]
    · obtain ⟨d, hd, rfl⟩ := List.mem_map.mp hb
      exact ⟨d, hd, rfl⟩

/-- Arcs that are added stand behind those that are there. -/
theorem prefix_foldl_addTo : ∀ new arcs : List Arc, arcs <+: new.foldl Arc.addTo arcs
  | [], arcs => List.prefix_refl arcs
  | b :: new, arcs => by
    have hadd : arcs <+: Arc.addTo arcs b := by
      unfold Arc.addTo
      split
      · exact List.prefix_refl arcs
      · exact List.prefix_append arcs [b]
    exact hadd.trans (prefix_foldl_addTo new _)

theorem forks_foldl_addTo {symbols : List Symbol} :
    Forks ((forks.map Layout.silent ++ symbols.map Layout.reject).foldl Arc.addTo []) forks where
  leads b hb := by
    rw [Arc.mem_foldl_addTo, List.mem_append] at hb
    rcases hb with hb | hb | hb
    · cases hb
    · obtain ⟨s, hs, rfl⟩ := List.mem_map.mp hb
      exact .inl ⟨s, hs, rfl⟩
    · obtain ⟨c, -, rfl⟩ := List.mem_map.mp hb
      exact .inr rfl
  split {before after s} h hs := by
    subst h
    have hmem {b : Arc} (hb : b ∈ (before.map Layout.silent).foldl Arc.addTo []) :
        ∃ d ∈ before, b = Layout.silent d := by
      rcases Arc.mem_foldl_addTo.mp hb with hb | hb
      · cases hb
      · obtain ⟨d, hd, rfl⟩ := List.mem_map.mp hb
        exact ⟨d, hd, rfl⟩
    have hnew : Layout.silent s ∉ (before.map Layout.silent).foldl Arc.addTo [] := by
      intro hb
      obtain ⟨d, hd, heq⟩ := hmem hb
      cases heq
      exact hs hd
    rw [List.map_append, List.map_cons, List.append_assoc, List.cons_append, List.foldl_append,
      List.foldl_cons, show Arc.addTo _ (Layout.silent s) = _ from if_neg hnew]
    obtain ⟨later, hlater⟩ := prefix_foldl_addTo
      (after.map Layout.silent ++ symbols.map Layout.reject)
      ((before.map Layout.silent).foldl Arc.addTo [] ++ [Layout.silent s])
    exact ⟨_, later, by rw [← hlater, List.append_assoc, List.singleton_append], fun b => hmem⟩

/-- Where several states are silently ahead, their ways are tried one after the other. -/
theorem Explores.of_forks (hreject : a.view reject = {}) (hview : a.view s = { arcs })
    (hforks : Forks arcs forks) (hle : n ≤ n') (h : a.ExploresAny t n n' f forks)
    (hs : ∀ d ∈ forks, a.findings d ≤ a.findings s) : a.Explores f s t n n' where
  le := hle
  finds hw := by
    obtain ⟨b, hb, hw⟩ := exists_arc_of_finds hview hw
    rcases hforks.leads b hb with ⟨d, hd, rfl⟩ | htarget
    · rw [findingsAlong_silent] at hw
      exact h.finds hd hw
    · rw [findingsAlong, htarget, findings_reject hreject, mul_zero] at hw
      exact absurd hw (Language.notMem_zero _)
  takes {w x rest} hx hrest := by
    obtain ⟨before, d, after, p, hsplit, hbefore, hp, hemits⟩ := h.takes hx hrest
    obtain ⟨earlier, later, harcs, hearlier⟩ :=
      hforks.split hsplit fun hd => hbefore d hd hp.finds
    have hd : d ∈ forks := hsplit ▸ List.mem_append_right _ (List.mem_cons_self ..)
    refine ⟨⟨s, .lambda⟩ :: p, takes_of_arc hreject (harcs ▸ hview) ?_ ?_ rfl hp, ?_⟩
    · exact (mem_findings.mp (hs d hd hp.finds)).not_bars
    · intro b hb hw
      obtain ⟨d, hd, rfl⟩ := hearlier b hb
      rw [findingsAlong_silent] at hw
      exact hbefore d hd hw
    · exact (Output.emits_silent (congrArg View.default hview)).append hemits

end Forks

end Automaton

end SoundChange
