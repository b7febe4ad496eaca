import SoundChange.Proofs.Application.Interchange
import SoundChange.Proofs.Statement.Grammatical
import Mathlib.Data.Option.Basic

/-!
# Going on behind the target

With `ApplyOptions.rescanContext` a match ends with its target, so that the search reads what comes
behind it once more. This changes nothing else: there is a match in the same places, with the same
changes, and what the longer match has written behind the target are the symbols that it has read
there (`Match.Resumes`). For behind the place where the target ends so far an output only copies
(`Output.Copies`): whatever else writes makes the target end later.

An environment that ends with the placeholder leaves nothing behind the target, because a derivation
of it ends with the pieces of the target. So for such a rule the option makes no difference.
-/

namespace SoundChange

namespace Output

variable {a : Automaton} {o : Output} {w v : List Symbol} {s u : StateId} {c : Symbol}
  {steps path : List Step} {ps : List Piece}

/-! ## Behind the target -/

/-- What has been written behind the end of the target are the symbols that have been read there. -/
def Copies (w : List Symbol) (o : Output) : Prop :=
  ∀ n text, o.targetEnd = some (n, text) → o.written = text ++ Symbol.text (w.drop n)

theorem copies_empty : Copies [] {} := nofun

/-- Where the target has just ended there is nothing behind it. -/
theorem copies_markTarget (h : o.position = w.length) : o.markTarget.Copies w := by
  intro n text hend
  cases hend
  rw [h, List.drop_length]
  exact (List.append_nil _).symm

namespace Copies

theorem release (h : o.Copies w) : (o.release a).Copies w := by
  intro n text hend
  rw [targetEnd_release] at hend
  rw [written_release]
  exact h n text hend

theorem passSilently (h : o.Copies w) (hposition : o.position = w.length) (s : StateId) :
    (o.passSilently a s).Copies w := by
  unfold Output.passSilently
  split
  · rename_i t _
    exact copies_markTarget ((position_switchUnit t.unit).trans hposition)
  · exact h

/-- A symbol without a transform is copied. -/
theorem copy (h : o.Copies w) (hbalanced : o.Balanced a w) (c : Symbol) (position : Nat) :
    Copies (w ++ [c]) { o.copy c with position } := by
  intro n text hend
  rw [List.drop_append_of_le_length (hbalanced.target hend).1, Symbol.text_append,
    ← List.append_assoc, ← h n text hend, ← textOf_eq]
  rfl

theorem readSymbol (h : o.Copies w) (hbalanced : o.Balanced a w) (ha : a.Registered)
    (s : StateId) (c : Symbol) : (o.readSymbol a s c).Copies (w ++ [c]) := by
  unfold Output.readSymbol
  dsimp only
  split
  · exact h.release.copy hbalanced.release c _
  rename_i n hattached
  obtain ⟨t, ht⟩ := ha.exists_transform hattached
  have hlength : (o.switchUnit a t.unit).position + 1 = (w ++ [c]).length := by
    rw [List.length_append, List.length_singleton, ← hbalanced.position_eq, position_switchUnit]
  rw [ht]
  dsimp only
  split
  · exact copies_markTarget hlength
  · exact copies_markTarget hlength

/-- A run only copies behind the end of the target. -/
theorem run (h : o.Copies w) (hbalanced : o.Balanced a w) (ha : a.Registered)
    (hrun : a.Run s steps v u) : (steps.foldl (step a) o).Copies (w ++ v) := by
  induction hrun generalizing o w with
  | stay => rwa [List.append_nil]
  | @silent s _ _ _ _ _ _ ih =>
    exact ih (h.passSilently hbalanced.position_eq s) (hbalanced.passSilently s)
  | @read s t u steps c v hc _ _ ih =>
    rw [List.foldl_cons, step_read hc, List.append_cons]
    exact ih (h.readSymbol hbalanced ha s c) (hbalanced.readSymbol ha s c)

end Copies

/-! ## The end of the target among the pieces -/

theorem targetEnd_foldl_kept (h : ∀ p ∈ ps, ∃ c, p = .kept c) :
    (ps.foldl add o).targetEnd = o.targetEnd := by
  induction ps generalizing o with
  | nil => rfl
  | cons p ps ih =>
    obtain ⟨⟨c, rfl⟩, hps⟩ := List.forall_mem_cons.mp h
    rw [List.foldl_cons, ih hps]
    rfl

/-- After pieces of the target, the target ends where reading has come to. -/
theorem targetEnd_foldl_changed (h : ∀ p ∈ ps, ∃ c, p = .changed c)
    (hend : ∀ place, o.targetEnd = some place → place = (o.position, o.written)) :
    ∀ place, (ps.foldl add o).targetEnd = some place →
      place = ((ps.foldl add o).position, (ps.foldl add o).written) := by
  induction ps generalizing o with
  | nil => exact hend
  | cons p ps ih =>
    obtain ⟨⟨c, rfl⟩, hps⟩ := List.forall_mem_cons.mp h
    rw [List.foldl_cons]
    exact ih hps fun place hplace => (Option.some.inj hplace).symm

end Output

theorem Automaton.Run.copies {a : Automaton} {s u : StateId} {path : List Step}
    {span : List Symbol} (ha : a.Registered) (h : a.Run s path span u) :
    (Output.ofPath a path).Copies span :=
  (Output.copies_empty.run Output.balanced_empty ha h).release

/-! ## Matches -/

/-- The second match goes on behind the target of the first one: the changes are the same, and
what it writes there are the symbols. -/
structure Match.Resumes (symbols : List Symbol) (short long : Match) : Prop where
  pos : 0 < short.length
  length_le : short.length ≤ long.length
  le_length : long.length ≤ symbols.length
  changes_eq : short.changes = long.changes
  output_eq : long.output =
    short.output ++ Symbol.text ((symbols.take long.length).drop short.length)

/-- Of one output the two kinds of matches are made in the same cases. -/
theorem Match.resumes_ofOutput {a : Automaton} {symbols : List Symbol} {length : Nat} {o : Output}
    (hlength : length ≤ symbols.length) (hbalanced : o.Balanced a (symbols.take length))
    (hcopies : o.Copies (symbols.take length)) (modifiers : Bool) :
    Option.Rel (Match.Resumes symbols) (Match.ofOutput ⟨modifiers, true⟩ length o)
      (Match.ofOutput ⟨modifiers, false⟩ length o) := by
  unfold Match.ofOutput
  split
  · exact .none
  · exact .none
  · rename_i targetEnd written hne hend
    have hle := (hbalanced.target hend).1
    rw [List.length_take, Nat.min_eq_left hlength] at hle
    exact .some ⟨Nat.pos_of_ne_zero hne, hle, hlength, rfl, hcopies _ _ hend⟩

namespace Table

variable {t : Table} {symbols : List Symbol}

/-- The longest span is the same with and without the option. -/
theorem longestFrom_rescan (modifiers : Bool) (id : StateId) (read : Nat) (best : Option Nat) :
    t.longestFrom ⟨modifiers, true⟩ id read best symbols =
      t.longestFrom ⟨modifiers, false⟩ id read best symbols := by
  induction symbols generalizing id read best with
  | nil => rfl
  | cons c rest ih =>
    rw [longestFrom, longestFrom]
    cases t.next id c with
    | none => rfl
    | some next => exact ih next _ _

theorem longest_rescan (modifiers : Bool) :
    t.longest ⟨modifiers, true⟩ symbols = t.longest ⟨modifiers, false⟩ symbols :=
  longestFrom_rescan modifiers t.start 0 none

/-- With and without the option there is a match in the same cases, and they go together. -/
theorem resumes_match? (ha : t.automaton.Registered) (modifiers : Bool) :
    Option.Rel (Match.Resumes symbols) (t.match? ⟨modifiers, true⟩ symbols)
      (t.match? ⟨modifiers, false⟩ symbols) := by
  rw [match?_eq_bind, match?_eq_bind, longest_rescan]
  cases hlongest : t.longest ⟨modifiers, false⟩ symbols with
  | none => exact .none
  | some length =>
    rw [Option.bind_some, Option.bind_some]
    cases hpath : t.automaton.acceptingPath (symbols.take length) with
    | none => exact .none
    | some path =>
      obtain ⟨f, hrun, -⟩ := Automaton.run_of_acceptingPath hpath
      exact Match.resumes_ofOutput (longest_eq_some_iff.mp hlongest).1.le_length
        (hrun.balanced ha).1 (hrun.copies ha) modifiers

end Table

/-! ## Environments that end with the placeholder -/

section Kept

variable {i : Inventory} {rule : Rule} {e : Element} {es before : List Element} {ps : List Piece}

theorem kept_of_rendered {text : Text} (h : Rendered i e text none ps) :
    ∀ p ∈ ps, ∃ c, p = .kept c := by
  cases h with
  | kept =>
    intro p hp
    obtain ⟨c, -, rfl⟩ := List.mem_map.mp hp
    exact ⟨c, rfl⟩

mutual

/-- Outside the target everything that is read is kept. -/
theorem kept_of_derives : ∀ {e : Element} {ps : List Piece},
    Derives i rule none e ps → e.Every (· ≠ .placeholder) → ∀ p ∈ ps, ∃ c, p = .kept c
  | _, _, .text h, _ => kept_of_rendered h
  | _, _, .segment _ _ _ _ h, _ => kept_of_rendered h
  | _, _, .leftOut, _ => nofun
  | _, _, .taken h, hplace => kept_of_derivesAll h hplace.2
  | _, _, .branch hbranch h, hplace =>
    kept_of_derivesAll h (Element.everyAmong_iff.mp hplace.2 _ hbranch)
  | _, _, .boundary, _ => fun _ hp => ⟨_, List.mem_singleton.mp hp⟩
  | _, _, .target _, hplace => absurd rfl hplace.self

theorem kept_of_derivesAll : ∀ {es : List Element} {ps : List Piece},
    DerivesAll i rule [] es ps → Element.EveryOf (· ≠ .placeholder) es →
    ∀ p ∈ ps, ∃ c, p = .kept c
  | _, _, .nil, _ => nofun
  | _, _, .cons h hs, hplace => by
    rw [List.forall_mem_append]
    exact ⟨kept_of_derives h hplace.1, kept_of_derivesAll hs hplace.2⟩

end

/-- Of a sequence that ends with the placeholder, what the target changes comes last. -/
theorem exists_changed_last : ∀ {before : List Element} {ps : List Piece},
    DerivesAll i rule [] (before ++ [.placeholder]) ps →
    Element.EveryOf (· ≠ .placeholder) before →
    ∃ qs rs, ps = qs ++ rs ∧ (∀ p ∈ qs, ∃ c, p = .kept c) ∧ ∀ p ∈ rs, ∃ c, p = .changed c
  | [], _, .cons h .nil, _ => by
    cases h with
    | segment hset => cases hset
    | target h =>
      exact ⟨[], _, List.append_nil _, nofun, changed_of_derivesAll Emission.length_shares h⟩
  | e :: before, _, .cons h hs, hplace => by
    obtain ⟨qs, rs, rfl, hqs, hrs⟩ := exists_changed_last hs hplace.2
    refine ⟨_, rs, (List.append_assoc ..).symm, ?_, hrs⟩
    exact List.forall_mem_append.mpr ⟨kept_of_derives h hplace.1, hqs⟩

end Kept

namespace Rule

variable {i : Inventory} {rule : Rule} {a : Automaton} {strip : Bool} {path : List Step}
  {span symbols : List Symbol} {s : StateId} {options : CompileOptions} {t : Table}

/-- A rule has one placeholder, so there is none before the one at the end. -/
theorem Readable.exists_before (hrule : rule.Readable)
    (hlast : (rule.environmentFor strip).getLast? = some .placeholder) :
    ∃ before, rule.environmentFor strip = before ++ [.placeholder] ∧
      Element.EveryOf (· ≠ .placeholder) before := by
  obtain ⟨known, hgrammatical⟩ := Statement.exists_grammatical_of_readable hrule
  obtain ⟨xs, ys, henvironment, hothers⟩ := hgrammatical.placeholder
  obtain ⟨before, hbefore⟩ := List.getLast?_eq_some_iff.mp hlast
  obtain ⟨os, hos, -⟩ := rule.environmentFor_append strip
  rw [Element.everyOf_iff] at hothers
  have hnot {zs : List Element} (hzs : zs ⊆ xs ++ ys) : .placeholder ∉ zs :=
    fun hmem => (hothers _ (hzs hmem)).self rfl
  rw [henvironment, hbefore, List.append_assoc, List.singleton_append,
    List.append_cons_inj_of_notMem (hnot (List.subset_append_left _ _))
      (hnot (List.subset_append_right _ _))] at hos
  obtain ⟨rfl, -⟩ := hos
  exact ⟨xs, hbefore, Element.everyOf_iff.mpr fun e he => hothers e (List.mem_append_left _ he)⟩

/-- If the environment ends with the placeholder, the target ends where the match does. -/
theorem targetEnd_eq_of_endsWith (hrule : rule.Readable) (h : rule.automaton i strip = .ok a)
    (hlast : (rule.environmentFor strip).getLast? = some .placeholder)
    (hrun : a.Run Automaton.start path span s) (hfinal : a.isFinal s = true) :
    ∀ place, (Output.ofPath a path).targetEnd = some place →
      place = (span.length, (Output.ofPath a path).written) := by
  have hposition := (hrun.balanced (Assembly.registered_of_automaton h)).1.position_eq
  obtain ⟨before, hbefore, hplace⟩ := hrule.exists_before hlast
  obtain ⟨ps, hps, -, houtput⟩ := hrule.wellFormed.ofPath_of_run h hrun hfinal
  rw [Derivation, hbefore] at hps
  obtain ⟨qs, rs, rfl, hqs, hrs⟩ := exists_changed_last hps hplace
  rw [← hposition, houtput, List.foldl_append]
  refine Output.targetEnd_foldl_changed hrs fun place hend => ?_
  rw [Output.targetEnd_foldl_kept hqs] at hend
  cases hend

/-- If the environment ends with the placeholder, the option makes no difference. -/
theorem match?_rescan (hrule : rule.Readable) (h : rule.table i options = .ok t)
    (hlast : (rule.environmentFor options.stripOptionals).getLast? = some .placeholder)
    (modifiers : Bool) (symbols : List Symbol) :
    t.match? ⟨modifiers, true⟩ symbols = t.match? ⟨modifiers, false⟩ symbols := by
  rw [Table.match?_eq_bind, Table.match?_eq_bind, Table.longest_rescan]
  cases hlongest : t.longest ⟨modifiers, false⟩ symbols with
  | none => rfl
  | some length =>
    rw [Option.bind_some, Option.bind_some]
    cases hpath : t.automaton.acceptingPath (symbols.take length) with
    | none => rfl
    | some path =>
      obtain ⟨f, hrun, hfinal⟩ := Automaton.run_of_acceptingPath hpath
      have hend := targetEnd_eq_of_endsWith hrule (table_eq_ok h).1 hlast hrun hfinal
      rw [List.length_take,
        Nat.min_eq_left (Table.longest_eq_some_iff.mp hlongest).1.le_length] at hend
      rw [Option.bind_some, Option.bind_some, Match.ofOutput, Match.ofOutput]
      split
      · rfl
      · rfl
      · rename_i htarget
        cases hend _ htarget
        rfl

/-- Going on behind the target only moves the place where the search goes on: there is a match in
the same cases, and behind its target the longer one copies what it reads. For a rule whose
environment ends with the placeholder, nothing comes behind the target, and words are changed in the
same way. -/
theorem rescanContext_moves_search :
    (∀ (a : Automaton) (limit : Nat) (t : Table), a.Registered →
      Table.ofAutomaton a limit = .ok t →
      ∀ (symbols : List Symbol) (first : Nat) (modifiers : Bool),
        Option.Rel (Match.Resumes (symbols.drop first))
          (t.match? ⟨modifiers, true⟩ (symbols.drop first))
          (t.match? ⟨modifiers, false⟩ (symbols.drop first))) ∧
    ∀ (i : Inventory) (rule : Rule) (options : CompileOptions) (t : Table), rule.Readable →
      rule.table i options = .ok t →
      (rule.environmentFor options.stripOptionals).getLast? = some .placeholder →
      ∀ (modifiers : Bool) (word : Text),
        t.apply ⟨modifiers, true⟩ word = t.apply ⟨modifiers, false⟩ word := by
  constructor
  · intro a limit t ha ht symbols first modifiers
    exact Table.resumes_match? ((Table.automaton_eq ht).symm ▸ ha) modifiers
  · intro i rule options t hrule h hlast modifiers word
    have hall := Table.applyFrom_congr (f := id)
      (fun symbols => congrArg _ (match?_rescan hrule h hlast modifiers symbols))
      (Symbol.coat word) 0
    rwa [List.map_id_fun, Prod.map_id, id_eq, id_eq] at hall

/-- Behind the target of `a/o/(k|#)_(l)` there may be an `l`, unless it is stripped. -/
theorem rounding_rescanContext : ∃ t u,
    rounding.table {} { stripOptionals := false } = .ok t ∧ t.automaton.Registered ∧
    (t.match? ⟨true, true⟩ ((Symbol.coat "kal".toList).drop 1)).map Match.output =
      some "ko".toList ∧
    (t.match? ⟨true, false⟩ ((Symbol.coat "kal".toList).drop 1)).map Match.output =
      some "kol".toList ∧
    Option.Rel (Match.Resumes ((Symbol.coat "kal".toList).drop 1))
      (t.match? ⟨true, true⟩ ((Symbol.coat "kal".toList).drop 1))
      (t.match? ⟨true, false⟩ ((Symbol.coat "kal".toList).drop 1)) ∧
    rounding.Readable ∧ rounding.table {} {} = .ok u ∧
    (rounding.environmentFor true).getLast? = some .placeholder ∧
    (u.apply ⟨true, true⟩ "kala".toList).1 = "kola".toList ∧
    u.apply ⟨true, true⟩ "kala".toList = u.apply ⟨true, false⟩ "kala".toList := by
  obtain ⟨t, ht⟩ : ∃ t, rounding.table {} { stripOptionals := false } = .ok t :=
    exists_ok (by decide +kernel)
  obtain ⟨u, hu⟩ : ∃ u, rounding.table {} {} = .ok u := exists_ok (by decide +kernel)
  have hmatches : (rounding.table {} { stripOptionals := false }).map (fun t =>
      ((t.match? ⟨true, true⟩ ((Symbol.coat "kal".toList).drop 1)).map Match.output,
        (t.match? ⟨true, false⟩ ((Symbol.coat "kal".toList).drop 1)).map Match.output)) =
      .ok (some "ko".toList, some "kol".toList) := by decide +kernel
  have houtput : (rounding.table {} {}).map (fun u => (u.apply ⟨true, true⟩ "kala".toList).1) =
      .ok "kola".toList := by decide +kernel
  rw [ht] at hmatches
  rw [hu] at houtput
  obtain ⟨hshort, hlong⟩ := Prod.mk.inj (Except.ok.inj hmatches)
  obtain ⟨ha, htable⟩ := table_eq_ok ht
  have hregistered := Assembly.registered_of_automaton ha
  exact ⟨t, u, ht, hregistered, hshort, hlong,
    rescanContext_moves_search.1 _ _ t hregistered htable _ 1 true, rounding_readable, hu, rfl,
    Except.ok.inj houtput,
    rescanContext_moves_search.2 {} rounding {} u rounding_readable hu rfl true _⟩

end Rule

end SoundChange
