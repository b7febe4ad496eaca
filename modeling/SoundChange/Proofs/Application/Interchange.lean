import SoundChange.Proofs.Application.Match
import SoundChange.Proofs.Application.Preferred
import SoundChange.Proofs.Application.Stripping
import SoundChange.Proofs.Rule.Replacement

/-!
# Rules that do the same

A match writes and records what the preferred way through its span does (`Rule.match?_eq`), and the
spans that match are those with a preferred way. So rules with the same ways change every word in
the same way, however their automata are built (`Rule.apply_congr`), up to what their ways differ by
in what they record.

Two instances: an optional element is the choice between its body and nothing
(`Rule.apply_orNothing`), and a set is the choice between its segments, the longer ones first
(`Rule.apply_spelledOut`). The first pair records the same changes; the second one differs in their
source, which is the set or the text itself.
-/

namespace SoundChange

/-- What is read and written stays as it is. -/
structure Change.KeepsTexts (f : Change → Change) : Prop where
  replaced_eq : ∀ c, (f c).replaced = c.replaced
  replacement_eq : ∀ c, (f c).replacement = c.replacement

variable {f : Change → Change} {options : ApplyOptions} {i : Inventory}

/-! ## Outputs and matches -/

namespace Output

/-- The output with what it records changed. -/
def relabel (f : Change → Change) (o : Output) : Output := { o with changes := o.changes.map f }

theorem relabel_add (hf : Change.KeepsTexts f) (o : Output) (p : Piece) :
    (o.add p).relabel f = (o.relabel f).add (p.relabel f) := by
  cases p with
  | kept => rfl
  | changed c =>
    simp only [relabel, add, Piece.relabel, markTarget, hf.replaced_eq, hf.replacement_eq,
      List.map_append, List.map_cons, List.map_nil]

theorem relabel_foldl_add (hf : Change.KeepsTexts f) {ps : List Piece} {o : Output} :
    (ps.foldl add o).relabel f = (ps.map (Piece.relabel f)).foldl add (o.relabel f) := by
  induction ps generalizing o with
  | nil => rfl
  | cons p ps ih => rw [List.foldl_cons, ih, relabel_add hf, List.map_cons, List.foldl_cons]

end Output

namespace Match

/-- The match with what it records changed. -/
def relabel (f : Change → Change) (m : Match) : Match := { m with changes := m.changes.map f }

/-- The match that some output makes, provided that the target has read something. -/
def ofOutput (options : ApplyOptions) (length : Nat) (o : Output) : Option Match :=
  match o.targetEnd with
  | none => none
  | some (0, _) => none
  | some (targetEnd, written) =>
    some (if options.rescanContext then ⟨targetEnd, written, o.changes⟩
      else ⟨length, o.written, o.changes⟩)

theorem map_ofOutput {length : Nat} {o : Output} :
    (ofOutput options length o).map (relabel f) = ofOutput options length (o.relabel f) := by
  unfold ofOutput
  rw [show (o.relabel f).targetEnd = o.targetEnd from rfl]
  split
  · rfl
  · rfl
  · cases options.rescanContext <;> rfl

/-- The match of the preferred way is that of the way with what it records changed. -/
theorem map_bind_ofOutput (hf : Change.KeepsTexts f) {length : Nat} (way : Option (List Piece)) :
    (way.bind fun ps => ofOutput options length (ps.foldl Output.add {})).map (relabel f) =
      (way.map (List.map (Piece.relabel f))).bind fun ps =>
        ofOutput options length (ps.foldl Output.add {}) := by
  cases way with
  | none => rfl
  | some ps =>
    rw [Option.bind_some, map_ofOutput, Output.relabel_foldl_add hf]
    rfl

end Match

/-! ## Tables -/

namespace Table

variable {t t' : Table} {symbols : List Symbol}

/-- A match is what the automaton's path through the longest span makes. -/
theorem match?_eq_bind : t.match? options symbols =
    (t.longest options symbols).bind fun length =>
      (t.automaton.acceptingPath (symbols.take length)).bind fun path =>
        Match.ofOutput options length (Output.ofPath t.automaton path) := by
  rw [match?]
  cases t.longest options symbols with
  | none => rfl
  | some length =>
    rw [Option.bind_some]
    dsimp only
    cases t.automaton.acceptingPath (symbols.take length) <;> rfl

/-- Tables that accept the same spans find the same longest one. -/
theorem longest_congr (h : ∀ w, t.accepts w = t'.accepts w) :
    t.longest options symbols = t'.longest options symbols := by
  have hspans (n : Nat) : t.Spans options t.start symbols n ↔ t'.Spans options t'.start symbols n :=
    ⟨fun hn => ⟨hn.pos, hn.le_length, (h _).symm.trans hn.isFinal, hn.mayEnd⟩,
      fun hn => ⟨hn.pos, hn.le_length, (h _).trans hn.isFinal, hn.mayEnd⟩⟩
  cases hlongest : t'.longest options symbols with
  | none =>
    rw [longest_eq_none_iff] at hlongest ⊢
    exact fun n hn => hlongest n ((hspans n).mp hn)
  | some n =>
    rw [longest_eq_some_iff] at hlongest ⊢
    exact ⟨(hspans n).mpr hlongest.1, fun k hk => hlongest.2 k ((hspans k).mp hk)⟩

/-- Tables with the same matches change all symbols in the same way. -/
theorem applyFrom_congr {options' : ApplyOptions}
    (h : ∀ symbols, (t.match? options symbols).map (Match.relabel f) =
      (t'.match? options' symbols).map (Match.relabel f)) : ∀ (symbols : List Symbol) (skip : Nat),
    (t.applyFrom options skip symbols).map id (List.map f) =
      (t'.applyFrom options' skip symbols).map id (List.map f)
  | [], _ => by simp only [applyFrom]
  | s :: rest, skip + 1 => by
    rw [applyFrom, applyFrom]
    exact applyFrom_congr h rest skip
  | s :: rest, 0 => by
    have hmatch := h (s :: rest)
    rw [applyFrom, applyFrom]
    cases hfound : t.match? options (s :: rest) with
    | none =>
      rw [hfound, Option.map_none, eq_comm, Option.map_eq_none_iff] at hmatch
      rw [hmatch]
      obtain ⟨htext, hchanges⟩ := Prod.ext_iff.mp (applyFrom_congr h rest 0)
      exact Prod.ext (congrArg (s.char?.toList ++ ·) htext) hchanges
    | some found =>
      rw [hfound, Option.map_some, eq_comm, Option.map_eq_some_iff] at hmatch
      obtain ⟨found', hfound', heq⟩ := hmatch
      obtain ⟨hlength, houtput, hown⟩ := Match.mk.inj heq
      obtain ⟨htext, hchanges⟩ := Prod.ext_iff.mp (applyFrom_congr h rest (found.length - 1))
      rw [hfound']
      dsimp only
      rw [hlength]
      refine Prod.ext (congrArg₂ (· ++ ·) houtput.symm htext) ?_
      rw [Prod.map_snd, Prod.map_snd, List.map_append, List.map_append, hown]
      exact congrArg (_ ++ ·) hchanges

end Table

namespace Rule

variable {rule rule' : Rule} {t t' : Table} {choices choices' : CompileOptions}

/-- A match is what the preferred way through the longest span makes. -/
theorem match?_eq (hrule : rule.WellFormed) (h : rule.table i choices = .ok t)
    (symbols : List Symbol) : t.match? options symbols =
      (t.longest options symbols).bind fun length =>
        (rule.preferred? i choices.stripOptionals (symbols.take length)).bind fun ps =>
          Match.ofOutput options length (ps.foldl Output.add {}) := by
  rw [Table.match?_eq_bind]
  cases hlongest : t.longest options symbols with
  | none => rfl
  | some length =>
    have ha := (table_eq_ok h).1
    have hspan := (accepts_iff_mem_language h).mp (Table.longest_eq_some_iff.mp hlongest).1.isFinal
    obtain ⟨ps, hps⟩ := Option.isSome_iff_exists.mp ((hrule.preferred?_isSome_iff ha).mpr hspan)
    obtain ⟨path, hpath, houtput⟩ := hrule.exists_acceptingPath ha hps
    rw [Option.bind_some, Option.bind_some, hpath, hps, Option.bind_some, Option.bind_some, houtput]

/-- Rules with the same ways change every word in the same way. -/
theorem apply_congr (hf : Change.KeepsTexts f) (hrule : rule.WellFormed)
    (hrule' : rule'.WellFormed) (ht : rule.table i choices = .ok t)
    (ht' : rule'.table i choices' = .ok t')
    (hways : (rule.ways i choices.stripOptionals).relabel f =
      (rule'.ways i choices'.stripOptionals).relabel f) (options : ApplyOptions) (word : Text) :
    (t.apply options word).map id (List.map f) = (t'.apply options word).map id (List.map f) := by
  have hpreferred (span : List Symbol) :
      (rule.preferred? i choices.stripOptionals span).map (List.map (Piece.relabel f)) =
        (rule'.preferred? i choices'.stripOptionals span).map (List.map (Piece.relabel f)) := by
    rw [map_preferred?, map_preferred?, hways]
  have haccepts (w : List Symbol) : t.accepts w = t'.accepts w := by
    rw [Bool.eq_iff_iff, accepts_iff_mem_language ht, accepts_iff_mem_language ht',
      ← hrule.preferred?_isSome_iff (table_eq_ok ht).1,
      ← hrule'.preferred?_isSome_iff (table_eq_ok ht').1,
      ← Option.isSome_map (f := List.map (Piece.relabel f)), hpreferred, Option.isSome_map]
  refine Table.applyFrom_congr (fun symbols => ?_) _ _
  rw [match?_eq hrule ht, match?_eq hrule' ht', Table.longest_congr haccepts]
  cases t'.longest options symbols with
  | none => rfl
  | some length =>
    rw [Option.bind_some, Option.bind_some, Match.map_bind_ofOutput hf,
      Match.map_bind_ofOutput hf, hpreferred]

/-! ## An optional element -/

theorem keepsTexts_id : Change.KeepsTexts id := ⟨fun _ => rfl, fun _ => rfl⟩

/-- An optional element can be replaced by the choice between its body and nothing: every word is
changed in the same way, and the same changes are recorded. -/
theorem apply_orNothing (hrule : rule.Readable) (h : rule.Replaces Element.OrNothing rule')
    (ht : rule.table i choices = .ok t) (ht' : rule'.table i choices' = .ok t')
    (hstrip : choices.stripOptionals = false) (hstrip' : choices'.stripOptionals = false)
    (options : ApplyOptions) (word : Text) : t'.apply options word = t.apply options word := by
  have hrule' : rule'.WellFormed := hrule.wellFormed.replaces h
    (fun _ _ h => h.every fun _ => ⟨nofun, nofun, rfl⟩) fun _ _ h => h.every fun _ => nofun
  have hways : (rule.ways i choices.stripOptionals).relabel id =
      (rule'.ways i choices'.stripOptionals).relabel id := by
    rw [hstrip, hstrip']
    exact h.relabel_ways (fun _ _ h => h.sameWays) nofun
  have hsame := apply_congr keepsTexts_id hrule.wellFormed hrule' ht ht' hways options word
  rwa [List.map_id_fun, Prod.map_id, eq_comm] at hsame

/-- `t/d/((s)e|a)_`, with an optional element in a branch. -/
def voicing : Rule where
  target := [.utterance ['t']]
  result := [.utterance ['d']]
  environment := [.disjunction
    [[.optional [.utterance ['s']], .utterance ['e']], [.utterance ['a']]], .placeholder]

/-- `t/d/((s|)e|a)_`. -/
def voicingOrNothing : Rule where
  target := [.utterance ['t']]
  result := [.utterance ['d']]
  environment := [.disjunction
    [[.disjunction [[.utterance ['s']], []], .utterance ['e']], [.utterance ['a']]], .placeholder]

theorem voicing_apply_orNothing : voicing.Readable ∧
    voicing.Replaces Element.OrNothing voicingOrNothing ∧ ∃ t t',
      voicing.table {} { stripOptionals := false } = .ok t ∧
      voicingOrNothing.table {} { stripOptionals := false } = .ok t' ∧
      (t.apply {} "setat".toList).1 = "sedad".toList ∧
      t'.apply {} "setat".toList = t.apply {} "setat".toList := by
  have hreadable : voicing.Readable := by
    have hread : Statement.readAll "t/d/((s)e|a)_".toList = [⟨1, .ok (.rule voicing .start)⟩] := by
      cbv
    exact ⟨_, _, _, hread ▸ List.mem_singleton_self _, rfl⟩
  have hreplaces : voicing.Replaces Element.OrNothing voicingOrNothing :=
    .environment (@Element.Replaces.inBranch _ _ _ _ [] _ (.here (.intro _)))
  obtain ⟨t, ht⟩ : ∃ t, voicing.table {} { stripOptionals := false } = .ok t :=
    exists_ok (by decide +kernel)
  obtain ⟨t', ht'⟩ : ∃ t', voicingOrNothing.table {} { stripOptionals := false } = .ok t' :=
    exists_ok (by decide +kernel)
  have houtput : (voicing.table {} { stripOptionals := false }).map
      (fun t => (t.apply {} "setat".toList).1) = .ok "sedad".toList := by decide +kernel
  rw [ht] at houtput
  exact ⟨hreadable, hreplaces, t, t', ht, ht', Except.ok.inj houtput,
    apply_orNothing hreadable hreplaces ht ht' rfl rfl {} _⟩

/-! ## A set -/

theorem keepsTexts_unsourced : Change.KeepsTexts Change.unsourced := ⟨fun _ => rfl, fun _ => rfl⟩

/-- A set can be replaced by the choice between its segments, in the order of decreasing length or
another one in which none begins a later one: every word is changed in the same way, and the same
texts are recorded to be replaced by the same ones. -/
theorem apply_spelledOut (hrule : rule.Readable) (h : rule.Replaces i.SpelledOut rule')
    (ht : rule.table i choices = .ok t) (ht' : rule'.table i choices' = .ok t')
    (hstrip : choices'.stripOptionals = choices.stripOptionals) (options : ApplyOptions)
    (word : Text) : (t'.apply options word).1 = (t.apply options word).1 ∧
      (t'.apply options word).2.map (fun c => (c.replaced, c.replacement)) =
        (t.apply options word).2.map (fun c => (c.replaced, c.replacement)) := by
  have hrule' : rule'.WellFormed := hrule.wellFormed.replaces h
    (fun _ _ h _ => h.every (fun _ => ⟨nofun, nofun, rfl⟩) fun text hne =>
      ⟨fun hnil => hne (Element.utterance.inj hnil), nofun, rfl⟩)
    fun _ _ h _ => h.every (fun _ => nofun) fun text hne hnil => hne (Element.utterance.inj hnil)
  have hways : (rule.ways i choices.stripOptionals).relabel Change.unsourced =
      (rule'.ways i choices'.stripOptionals).relabel Change.unsourced := by
    rw [hstrip]
    exact h.relabel_ways (fun _ _ h => h.sameWays) fun _ _ _ h => h.isOptional_eq
  obtain ⟨htext, hchanges⟩ := Prod.ext_iff.mp
    (apply_congr keepsTexts_unsourced hrule.wellFormed hrule' ht ht' hways options word)
  -- the texts of a change are those of the change without its source
  have htexts := congrArg (List.map fun c : Change => (c.replaced, c.replacement)) hchanges
  rw [Prod.map_snd, Prod.map_snd, List.map_map, List.map_map] at htexts
  exact ⟨htext.symm, htexts.symm⟩

/-- Stops and affricates. -/
def stops : Inventory := { categories := [(['T'], .ofList [['t'], ['t', 's']])] }

/-- `$T/k/_s`, where a segment of the set begins another one. -/
def backing : Rule where
  target := [.set (.category ['T'])]
  result := [.utterance ['k']]
  environment := [.placeholder, .utterance ['s']]

/-- `(ts|t)/k/_s`. -/
def backingSpelledOut : Rule where
  target := [.disjunction [[.utterance ['t', 's']], [.utterance ['t']]]]
  result := [.utterance ['k']]
  environment := [.placeholder, .utterance ['s']]

theorem backing_apply_spelledOut : backing.Readable ∧
    backing.Replaces stops.SpelledOut backingSpelledOut ∧ ∃ t t',
      backing.table stops {} = .ok t ∧ backingSpelledOut.table stops {} = .ok t' ∧
      (t.apply {} "tsatss".toList).1 = "ksaks".toList ∧
      (t'.apply {} "tsatss".toList).1 = (t.apply {} "tsatss".toList).1 ∧
      (t'.apply {} "tsatss".toList).2.map (fun c => (c.replaced, c.replacement)) =
        (t.apply {} "tsatss".toList).2.map (fun c => (c.replaced, c.replacement)) := by
  have hreadable : backing.Readable := by
    have hread : Statement.readAll "$T/k/_s".toList = [⟨1, .ok (.rule backing .start)⟩] := by cbv
    exact ⟨_, _, _, hread ▸ List.mem_singleton_self _, rfl⟩
  have hspelled : stops.SpelledOut (.set (.category ['T']))
      (.disjunction [[.utterance ['t', 's']], [.utterance ['t']]]) := by
    refine Inventory.spelledOut_of_length (.ofList [['t'], ['t', 's']]) [['t', 's'], ['t']] rfl
      (by decide +kernel) (by decide) (fun text => ?_) (by decide)
    rw [SortedSet.mem_ofList]
    constructor
    · intro h
      exact ⟨by simpa [or_comm] using h, fun hnil => by simp [hnil] at h⟩
    · exact fun h => by simpa [or_comm] using h.1
  have hreplaces : backing.Replaces stops.SpelledOut backingSpelledOut := .target (.here hspelled)
  obtain ⟨t, ht⟩ : ∃ t, backing.table stops {} = .ok t := exists_ok (by decide +kernel)
  obtain ⟨t', ht'⟩ : ∃ t', backingSpelledOut.table stops {} = .ok t' :=
    exists_ok (by decide +kernel)
  have houtput : (backing.table stops {}).map (fun t => (t.apply {} "tsatss".toList).1) =
      .ok "ksaks".toList := by decide +kernel
  rw [ht] at houtput
  exact ⟨hreadable, hreplaces, t, t', ht, ht', Except.ok.inj houtput,
    apply_spelledOut hreadable hreplaces ht ht' rfl {} _⟩

end Rule

end SoundChange
