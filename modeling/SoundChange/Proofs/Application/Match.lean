import SoundChange.Application.Basic
import SoundChange.Proofs.Automaton.Subset
import Mathlib.Order.Bounds.Defs

/-!
# Which span a match takes

`Table.Spans` is what makes the beginning of some symbols a candidate for a match: it is read from
the start to a final state, and a match may end behind it. The search for the longest span finds the
longest candidate, if there is one (`Table.longest_eq_some_iff`, `Table.longest_eq_none_iff`). In
terms of the automaton, it finds the greatest place up to which the automaton can read, reject edges
and all, and where a match may end (`Table.longest_isGreatest`). A match is what the automaton
writes along its path through the longest span (`Table.match?_eq_some_iff`).
-/

namespace SoundChange

/-- A match that begins at one place among some symbols may end at another: the automaton reads what
is between the two, and no modifier follows that counts. -/
structure Automaton.MayMatch (a : Automaton) (options : ApplyOptions) (symbols : List Symbol)
    (first last : Nat) : Prop where
  lt : first < last
  le_length : last ≤ symbols.length
  accepts : a.Accepts start ((symbols.take last).drop first)
  not_modifier : options.modifierContinuation = true →
    ∀ c, symbols[last]? = some (.char c) → Text.isModifier c = false

namespace Table

variable {a : Automaton} {t : Table} {options : ApplyOptions} {id next : StateId} {c : Symbol}
  {symbols rest : List Symbol} {n k : Nat} {found : Match}

/-- The first `n` symbols, at least one, lead from a state to a final one, and a match may end
there. -/
structure Spans (t : Table) (options : ApplyOptions) (id : StateId) (symbols : List Symbol)
    (n : Nat) : Prop where
  pos : 0 < n
  le_length : n ≤ symbols.length
  isFinal : ((symbols.take n).foldlM t.next id).any t.isFinal = true
  mayEnd : mayEnd options (symbols.drop n) = true

instance : Decidable (t.Spans options id symbols n) :=
  decidable_of_iff (0 < n ∧ n ≤ symbols.length ∧
      ((symbols.take n).foldlM t.next id).any t.isFinal = true ∧
      Table.mayEnd options (symbols.drop n) = true)
    ⟨fun h => ⟨h.1, h.2.1, h.2.2.1, h.2.2.2⟩, fun h => ⟨h.pos, h.le_length, h.isFinal, h.mayEnd⟩⟩

theorem mayEnd_iff : mayEnd options symbols = true ↔ (options.modifierContinuation = true →
    ∀ c, symbols.head? = some (.char c) → Text.isModifier c = false) := by
  rw [mayEnd, Bool.not_eq_true', Bool.and_eq_false_imp]
  refine forall_congr' fun _ => ?_
  rw [Option.any_eq_false]
  simp only [Option.bind_eq_some_iff, forall_exists_index, and_imp]
  constructor
  · exact fun h c hc => h c _ hc rfl
  · intro h c s hs hchar
    cases s with
    | char d =>
      cases hchar
      exact h c hs
    | _ => cases hchar

theorem not_spans_nil : ¬ t.Spans options id [] n := fun h =>
  absurd h.pos (Nat.not_lt.mpr h.le_length)

theorem not_spans_cons (h : t.next id c = none) : ¬ t.Spans options id (c :: rest) n := by
  intro hn
  cases n with
  | zero => exact Nat.lt_irrefl 0 hn.pos
  | succ k =>
    have hfinal := hn.isFinal
    rw [List.take_succ_cons, List.foldlM_cons, h] at hfinal
    cases hfinal

/-- A candidate ends behind its first symbol or goes on from the state that it leads to. -/
theorem spans_cons_iff (h : t.next id c = some next) : t.Spans options id (c :: rest) n ↔
    (n = 1 ∧ (t.isFinal next && Table.mayEnd options rest) = true) ∨
      ∃ k, n = k + 1 ∧ t.Spans options next rest k := by
  constructor
  · rintro ⟨hpos, hle, hfinal, hend⟩
    cases n with
    | zero => exact absurd hpos (Nat.lt_irrefl 0)
    | succ k =>
      rw [List.take_succ_cons, List.foldlM_cons, h] at hfinal
      rcases Nat.eq_zero_or_pos k with rfl | hk
      · exact .inl ⟨rfl, Bool.and_eq_true_iff.mpr ⟨hfinal, hend⟩⟩
      · exact .inr ⟨k, rfl, hk, Nat.le_of_succ_le_succ hle, hfinal, hend⟩
  · rintro (⟨rfl, hlast⟩ | ⟨k, rfl, hk⟩)
    · obtain ⟨hfinal, hend⟩ := Bool.and_eq_true_iff.mp hlast
      refine ⟨Nat.one_pos, Nat.le_add_left 1 _, ?_, hend⟩
      rw [List.take_succ_cons, List.foldlM_cons, h]
      exact hfinal
    · refine ⟨Nat.succ_pos k, Nat.succ_le_succ hk.le_length, ?_, hk.mayEnd⟩
      rw [List.take_succ_cons, List.foldlM_cons, h]
      exact hk.isFinal

/-- The search gives the longest candidate, or what it was given if there is none. -/
theorem longestFrom_eq (id : StateId) (symbols : List Symbol) (read : Nat) (best : Option Nat) :
    t.longestFrom options id read best symbols = best ∧ (∀ k, ¬ t.Spans options id symbols k) ∨
    ∃ n, t.longestFrom options id read best symbols = some (read + n) ∧
      t.Spans options id symbols n ∧ ∀ k, t.Spans options id symbols k → k ≤ n := by
  induction symbols generalizing id read best with
  | nil => exact .inl ⟨rfl, fun _ => not_spans_nil⟩
  | cons c rest ih =>
    cases hnext : t.next id c with
    | none =>
      rw [longestFrom, hnext]
      exact .inl ⟨rfl, fun _ => not_spans_cons hnext⟩
    | some next =>
      rw [longestFrom, hnext]
      dsimp only
      simp only [spans_cons_iff hnext]
      -- a longer candidate goes on behind the symbol; otherwise it may be the only one
      rcases ih next (read + 1) (if (t.isFinal next && Table.mayEnd options rest) = true
        then some (read + 1) else best) with ⟨heq, hnone⟩ | ⟨n, heq, hn, hmax⟩
      · rw [heq]
        by_cases hlast : (t.isFinal next && Table.mayEnd options rest) = true
        · rw [if_pos hlast]
          refine .inr ⟨1, rfl, .inl ⟨rfl, hlast⟩, ?_⟩
          rintro k (⟨rfl, -⟩ | ⟨k, rfl, hk⟩)
          · exact Nat.le_refl 1
          · exact absurd hk (hnone k)
        · rw [if_neg hlast]
          refine .inl ⟨rfl, ?_⟩
          rintro k (⟨-, hk⟩ | ⟨k, -, hk⟩)
          · exact hlast hk
          · exact hnone k hk
      · refine .inr ⟨n + 1, by rw [heq, Nat.add_assoc, Nat.add_comm 1], .inr ⟨n, rfl, hn⟩, ?_⟩
        rintro k (⟨rfl, -⟩ | ⟨k, rfl, hk⟩)
        · exact Nat.succ_le_succ (Nat.zero_le n)
        · exact Nat.succ_le_succ (hmax k hk)

/-- The longest match is the longest candidate. -/
theorem longest_eq_some_iff : t.longest options symbols = some n ↔
    t.Spans options t.start symbols n ∧ ∀ k, t.Spans options t.start symbols k → k ≤ n := by
  rw [longest]
  rcases longestFrom_eq t.start symbols 0 none with ⟨heq, hnone⟩ | ⟨m, heq, hm, hmax⟩
  · rw [heq]
    exact ⟨nofun, fun h => absurd h.1 (hnone n)⟩
  · rw [heq, Nat.zero_add, Option.some.injEq]
    constructor
    · rintro rfl
      exact ⟨hm, hmax⟩
    · rintro ⟨hn, hmax'⟩
      exact Nat.le_antisymm (hmax' m hm) (hmax n hn)

theorem longest_eq_none_iff :
    t.longest options symbols = none ↔ ∀ k, ¬ t.Spans options t.start symbols k := by
  constructor
  · intro h k hk
    rw [longest] at h
    rcases longestFrom_eq t.start symbols 0 none with ⟨-, hnone⟩ | ⟨m, heq, -⟩
    · exact hnone k hk
    · rw [heq] at h
      cases h
  · intro h
    cases hn : t.longest options symbols with
    | none => rfl
    | some n => exact absurd (longest_eq_some_iff.mp hn).1 (h n)

/-- The candidates are what the automaton may match. -/
theorem spans_drop_iff (ha : a.Built) {limit : Nat} (ht : ofAutomaton a limit = .ok t) :
    t.Spans options t.start (symbols.drop k) n ↔ a.MayMatch options symbols k (k + n) := by
  have hread : ((symbols.drop k).take n).foldlM t.next t.start =
      t.walk ((symbols.take (k + n)).drop k) := by
    rw [walk, List.take_drop]
  have hnext : ((symbols.drop k).drop n).head? = symbols[k + n]? := by
    rw [List.drop_drop, List.head?_drop]
  constructor
  · rintro ⟨hpos, hle, hfinal, hend⟩
    rw [hread] at hfinal
    rw [mayEnd_iff, hnext] at hend
    rw [List.length_drop] at hle
    exact ⟨by omega, by omega, (accepts_iff ha.size_edges ht).mp hfinal, hend⟩
  · rintro ⟨hlt, hle, haccepts, hend⟩
    refine ⟨by omega, by rw [List.length_drop]; omega, ?_, by rwa [mayEnd_iff, hnext]⟩
    rw [hread]
    exact (accepts_iff ha.size_edges ht).mpr haccepts

/-- A match that begins at some place takes the greatest place that it may end at, and there is none
if it may end nowhere. -/
theorem longest_isGreatest {limit : Nat} (ha : a.Built) (ht : ofAutomaton a limit = .ok t)
    (options : ApplyOptions) (symbols : List Symbol) (first : Nat) :
    (∀ last, (t.longest options (symbols.drop first)).map (first + ·) = some last ↔
      IsGreatest {k | a.MayMatch options symbols first k} last) ∧
    (t.longest options (symbols.drop first) = none ↔
      ∀ last, ¬ a.MayMatch options symbols first last) := by
  have hspans (k : Nat) : a.MayMatch options symbols first k ↔
      ∃ n, k = first + n ∧ t.Spans options t.start (symbols.drop first) n := by
    constructor
    · intro h
      obtain ⟨n, rfl⟩ := Nat.exists_eq_add_of_le (Nat.le_of_lt h.lt)
      exact ⟨n, rfl, (spans_drop_iff ha ht).mpr h⟩
    · rintro ⟨n, rfl, h⟩
      exact (spans_drop_iff ha ht).mp h
  constructor
  · intro last
    rw [Option.map_eq_some_iff]
    constructor
    · rintro ⟨n, hn, rfl⟩
      obtain ⟨hspan, hmax⟩ := longest_eq_some_iff.mp hn
      refine ⟨(hspans _).mpr ⟨n, rfl, hspan⟩, fun k hk => ?_⟩
      obtain ⟨m, rfl, hm⟩ := (hspans k).mp hk
      exact Nat.add_le_add_left (hmax m hm) first
    · rintro ⟨hlast, hmax⟩
      obtain ⟨n, rfl, hn⟩ := (hspans last).mp hlast
      refine ⟨n, longest_eq_some_iff.mpr ⟨hn, fun m hm => ?_⟩, rfl⟩
      exact Nat.le_of_add_le_add_left (hmax ((hspans _).mpr ⟨m, rfl, hm⟩))
  · rw [longest_eq_none_iff]
    constructor
    · intro h k hk
      obtain ⟨n, rfl, hn⟩ := (hspans k).mp hk
      exact h n hn
    · exact fun h n hn => h _ ((hspans _).mpr ⟨n, rfl, hn⟩)

/-- Behind `aa`, only a modifier keeps the match from ending. -/
theorem longest_isGreatest_silentCycle : silentCycle.Built ∧
    ∃ t, ofAutomaton silentCycle 4 = .ok t ∧
      IsGreatest {k | silentCycle.MayMatch {} (Symbol.coat ['a', 'a', 'ʰ']) 1 k} 2 ∧
      ∀ last, ¬ silentCycle.MayMatch {} (Symbol.coat ['a', 'a', 'ʰ']) 3 last := by
  obtain ⟨t, ht⟩ : ∃ t, ofAutomaton silentCycle 4 = .ok t := exists_ok (by decide +kernel)
  have hlongest : (ofAutomaton silentCycle 4).map (fun t =>
      (t.longest {} ((Symbol.coat ['a', 'a', 'ʰ']).drop 1),
        t.longest {} ((Symbol.coat ['a', 'a', 'ʰ']).drop 3))) = .ok (some 1, none) := by
    decide +kernel
  rw [ht] at hlongest
  obtain ⟨hone, hnone⟩ := Prod.mk.inj (Except.ok.inj hlongest)
  have hgreatest := (longest_isGreatest silentCycle_built ht {} (Symbol.coat ['a', 'a', 'ʰ']) 1).1 2
  exact ⟨silentCycle_built, t, ht, hgreatest.mp (by rw [hone]; rfl),
    (longest_isGreatest silentCycle_built ht {} _ 3).2.mp hnone⟩

/-- A match is found in the longest candidate, provided that the target has read something on the
automaton's path through it. -/
theorem match?_eq_some_iff : t.match? options symbols = some found ↔
    ∃ length path targetEnd written, t.longest options symbols = some length ∧
      t.automaton.acceptingPath (symbols.take length) = some path ∧
      (Output.ofPath t.automaton path).targetEnd = some (targetEnd, written) ∧ 0 < targetEnd ∧
      found = (if options.rescanContext then
        ⟨targetEnd, written, (Output.ofPath t.automaton path).changes⟩
        else ⟨length, (Output.ofPath t.automaton path).written,
          (Output.ofPath t.automaton path).changes⟩) := by
  rw [match?]
  constructor
  · intro h
    split at h
    · cases h
    rename_i length hlength
    split at h
    · cases h
    rename_i path hpath
    dsimp only at h
    split at h
    · cases h
    · cases h
    · rename_i targetEnd written hne hend
      exact ⟨length, path, targetEnd, written, hlength, hpath, hend, Nat.pos_of_ne_zero hne,
        (Option.some.inj h).symm⟩
  · rintro ⟨length, path, targetEnd, written, hlength, hpath, hend, hpos, rfl⟩
    obtain ⟨k, rfl⟩ := Nat.exists_eq_add_one_of_ne_zero (Nat.ne_of_gt hpos)
    rw [hlength]
    dsimp only
    rw [hpath]
    dsimp only
    rw [hend]
    rfl

end Table

end SoundChange
