import SoundChange.Proofs.Application.Account
import SoundChange.Proofs.Application.Trace
import SoundChange.Proofs.Rule.Registered

/-!
# Stripping and matches

What becomes of the matches of a rule when the optional elements at the end of its environment are
left out. The spans that can be read are those with the optional elements, cut off somewhere
(`Rule.language_strip_le`, `Rule.exists_prefix_mem_language`). Where the target cannot match
nothing, there is a match as soon as there is a span (`Rule.match?_isSome_iff`), because the target
is among what a path through the span changes. So stripping finds no match where there was none, and
loses none unless a match may not end before a modifier (`Rule.strip_keeps_matches`).
-/

namespace SoundChange

variable {i : Inventory} {rule : Rule} {P : Language Symbol}

/-! ## Targets in derivations -/

theorem changed_of_rendered {e : Element} {text : Text} {m : Emission} {ps : List Piece}
    (h : Rendered i e text (some m) ps) : ∀ p ∈ ps, ∃ c, p = .changed c := by
  cases h with
  | changed => exact fun p hp => ⟨_, List.mem_singleton.mp hp⟩

theorem length_within {m : Emission} {body : List Element} :
    (Emission.within (some m) body).length = body.length := Emission.length_shares

mutual

/-- In the target everything that is read is changed. -/
theorem changed_of_derives : ∀ {m : Emission} {e : Element} {ps : List Piece},
    Derives i rule (some m) e ps → ∀ p ∈ ps, ∃ c, p = .changed c
  | _, _, _, .text h => changed_of_rendered h
  | _, _, _, .segment _ _ _ _ h => changed_of_rendered h
  | _, _, _, .leftOut => nofun
  | _, _, _, .taken h => changed_of_derivesAll length_within h
  | _, _, _, .branch _ h => changed_of_derivesAll length_within h

theorem changed_of_derivesAll : ∀ {ms : List Emission} {es : List Element} {ps : List Piece},
    ms.length = es.length → DerivesAll i rule ms es ps → ∀ p ∈ ps, ∃ c, p = .changed c
  | _, _, _, _, .nil => nofun
  | m :: ms, _, _, hlength, .cons h hs => by
    rw [List.forall_mem_append]
    exact ⟨changed_of_derives h, changed_of_derivesAll (Nat.succ.inj hlength) hs⟩

end

/-- A derivation of a sequence with the placeholder has one of the target in it. -/
theorem exists_target_of_derivesAll : ∀ {es : List Element} {ps : List Piece},
    DerivesAll i rule [] es ps → .placeholder ∈ es →
    ∃ qs, DerivesAll i rule (Emission.shares rule.result [] rule.target) rule.target qs ∧ qs ⊆ ps
  | e :: es, _, .cons h hs, hplace => by
    rcases List.mem_cons.mp hplace with rfl | hplace
    · cases h with
      | segment hset => cases hset
      | target h => exact ⟨_, h, List.subset_append_left _ _⟩
    · obtain ⟨qs, hqs, hsub⟩ := exists_target_of_derivesAll hs hplace
      exact ⟨qs, hqs, List.subset_append_of_subset_right _ hsub⟩

/-! ## What can be read with and without the optional elements -/

theorem Element.languageAll_append (es fs : List Element) :
    languageAll i P (es ++ fs) = languageAll i P es * languageAll i P fs := by
  induction es with
  | nil => exact (one_mul _).symm
  | cons e es ih => rw [List.cons_append, languageAll, languageAll, ih, mul_assoc]

/-- Optional elements can match nothing. -/
theorem Element.nil_mem_languageAll {es : List Element} (h : ∀ e ∈ es, e.isOptional = true) :
    [] ∈ languageAll i P es := by
  induction es with
  | nil => exact rfl
  | cons e es ih =>
    rw [List.forall_mem_cons] at h
    have hnil : [] ∈ language i P e := by
      cases e with
      | optional => exact .inr rfl
      | _ => cases h.1
    exact Language.append_mem_mul hnil (ih h.2)

namespace Rule

variable {strip : Bool} {w : List Symbol} {options : CompileOptions} {t u : Table}
  {applyOptions : ApplyOptions} {symbols : List Symbol}

/-- The optional elements at the end only add to what is read. -/
theorem language_eq_mul : ∃ L : Language Symbol, [] ∈ L ∧
    rule.language i false = rule.language i true * L := by
  obtain ⟨os, hos, hoptional⟩ := rule.environmentFor_append true
  refine ⟨Element.languageAll i (rule.targetLanguage i) os, Element.nil_mem_languageAll hoptional,
    ?_⟩
  have hall := Element.languageAll_append (i := i) (P := rule.targetLanguage i)
    (rule.environmentFor true) os
  rwa [← hos] at hall

theorem language_strip_le (h : w ∈ rule.language i true) : w ∈ rule.language i false := by
  obtain ⟨L, hnil, hmul⟩ := rule.language_eq_mul (i := i)
  rw [hmul, ← List.append_nil w]
  exact Language.append_mem_mul h hnil

theorem exists_prefix_mem_language (h : w ∈ rule.language i false) :
    ∃ k ≤ w.length, w.take k ∈ rule.language i true := by
  obtain ⟨L, -, hmul⟩ := rule.language_eq_mul (i := i)
  rw [hmul] at h
  obtain ⟨v, hv, x, -, rfl⟩ := Language.mem_mul.mp h
  refine ⟨v.length, ?_, by rwa [List.take_left]⟩
  rw [List.length_append]
  exact Nat.le_add_right _ _

/-! ## Matches -/

/-- Where the target cannot match nothing, a derivation changes some text. -/
theorem exists_changed_of_derivation {ps : List Piece}
    (hplace : .placeholder ∈ rule.environmentFor strip) (htarget : [] ∉ rule.targetLanguage i)
    (h : rule.Derivation i strip ps) : ∃ c, Piece.changed c ∈ ps ∧ c.replaced ≠ [] := by
  obtain ⟨qs, hqs, hsub⟩ := exists_target_of_derivesAll h hplace
  have hread : qs.flatMap Piece.symbols ∈ rule.targetLanguage i :=
    mem_language_of_derivesAll (.inr Emission.length_shares) hqs
  have hne : qs.flatMap Piece.symbols ≠ [] := fun hnil => htarget (hnil ▸ hread)
  obtain ⟨p, hp, hsymbols⟩ : ∃ p ∈ qs, p.symbols ≠ [] := by
    simpa [List.flatMap_eq_nil_iff] using hne
  obtain ⟨c, rfl⟩ := changed_of_derivesAll Emission.length_shares hqs p hp
  refine ⟨c, hsub hp, fun hnil => hsymbols ?_⟩
  rw [Piece.symbols, hnil]
  rfl

/-- If there is a span, the automaton has a path through the longest one. -/
theorem exists_path_of_spans (hrule : rule.Readable) (h : rule.table i options = .ok t) {k : Nat}
    (hspan : t.Spans applyOptions t.start symbols k) :
    ∃ n path, t.longest applyOptions symbols = some n ∧ k ≤ n ∧
      t.automaton.acceptingPath (symbols.take n) = some path := by
  obtain ⟨n, hlongest⟩ : ∃ n, t.longest applyOptions symbols = some n := by
    rw [← Option.isSome_iff_exists, Option.isSome_iff_ne_none]
    exact fun hnone => Table.longest_eq_none_iff.mp hnone k hspan
  obtain ⟨hspans, hmax⟩ := Table.longest_eq_some_iff.mp hlongest
  obtain ⟨path, hpath⟩ := Option.isSome_iff_exists.mp (Automaton.acceptingPath_isSome_of_finds
    (hrule.wellFormed.language_le_findings (table_eq_ok h).1
      ((accepts_iff_mem_language h).mp hspans.isFinal)))
  exact ⟨n, path, hlongest, hmax k hspan, hpath⟩

/-- Where the target cannot match nothing, there is a match as soon as there is a span for it. -/
theorem match?_isSome_iff (hrule : rule.Readable) (htarget : [] ∉ rule.targetLanguage i)
    (h : rule.table i options = .ok t) : (t.match? applyOptions symbols).isSome = true ↔
      ∃ n, t.Spans applyOptions t.start symbols n := by
  constructor
  · intro hmatch
    obtain ⟨found, hfound⟩ := Option.isSome_iff_exists.mp hmatch
    obtain ⟨n, _, _, _, hlongest, -⟩ := Table.match?_eq_some_iff.mp hfound
    exact ⟨n, (Table.longest_eq_some_iff.mp hlongest).1⟩
  · rintro ⟨k, hk⟩
    obtain ⟨n, path, hlongest, -, hpath⟩ := exists_path_of_spans hrule h hk
    have ha := (table_eq_ok h).1
    obtain ⟨f, hrun, hfinal⟩ := Automaton.run_of_acceptingPath hpath
    obtain ⟨ps, hps, -, -, hchanges⟩ := hrule.wellFormed.output_of_run ha hrun hfinal
    obtain ⟨c, hc, hne⟩ := exists_changed_of_derivation
      (hrule.placeholder_mem_environmentFor _) htarget hps
    obtain ⟨hbalanced, hheld⟩ := hrun.balanced (Assembly.registered_of_automaton ha)
    obtain ⟨m, text, hend, hpos⟩ := hbalanced.target_pos hheld
      (by rw [hchanges]; exact List.mem_filterMap.mpr ⟨_, hc, rfl⟩) hne
    exact Option.isSome_iff_exists.mpr ⟨_, Table.match?_eq_some_iff.mpr
      ⟨n, path, m, text, hlongest, hpath, hend, hpos, rfl⟩⟩

/-- Where the target cannot match nothing, neither can the rule. -/
theorem nil_notMem_language (hrule : rule.Readable) (htarget : [] ∉ rule.targetLanguage i)
    (h : rule.table i options = .ok t) : [] ∉ rule.language i options.stripOptionals := by
  rw [hrule.wellFormed.mem_language_iff (table_eq_ok h).1]
  rintro ⟨ps, hps, hsymbols⟩
  obtain ⟨c, hc, hne⟩ := exists_changed_of_derivation
    (hrule.placeholder_mem_environmentFor _) htarget hps
  have hempty := List.flatMap_eq_nil_iff.mp hsymbols _ hc
  exact hne (List.map_eq_nil_iff.mp hempty)

/-- A match may end anywhere if the modifiers do not count or there are none. -/
theorem mayEnd_drop (h : applyOptions.modifierContinuation = false ∨
    ∀ c, .char c ∈ symbols → Text.isModifier c = false) (k : Nat) :
    Table.mayEnd applyOptions (symbols.drop k) = true := by
  rw [Table.mayEnd_iff]
  intro hcount c hc
  rcases h with hoff | hnone
  · rw [hcount] at hoff
    cases hoff
  · exact hnone c (List.mem_of_mem_drop (List.mem_of_mem_head? hc))

/-- Where the target cannot match nothing, stripping finds no match that was not there before, and
it loses none unless a modifier can keep the shorter match from ending. -/
theorem strip_keeps_matches {options' : CompileOptions} (hrule : rule.Readable)
    (htarget : [] ∉ rule.targetLanguage i) (hstrip : options.stripOptionals = true)
    (hkeep : options'.stripOptionals = false) (ht : rule.table i options = .ok t)
    (hu : rule.table i options' = .ok u) (applyOptions : ApplyOptions) (symbols : List Symbol) :
    ((t.match? applyOptions symbols).isSome = true →
      (u.match? applyOptions symbols).isSome = true) ∧
    (applyOptions.modifierContinuation = false ∨
        (∀ c, .char c ∈ symbols → Text.isModifier c = false) →
      (u.match? applyOptions symbols).isSome = true →
        (t.match? applyOptions symbols).isSome = true) := by
  rw [match?_isSome_iff hrule htarget ht, match?_isSome_iff hrule htarget hu]
  have haccepts (w : List Symbol) : t.accepts w = true ↔ w ∈ rule.language i true :=
    (accepts_iff_mem_language ht).trans (by rw [hstrip])
  have haccepts' (w : List Symbol) : u.accepts w = true ↔ w ∈ rule.language i false :=
    (accepts_iff_mem_language hu).trans (by rw [hkeep])
  constructor
  · rintro ⟨n, hn⟩
    have hlanguage := language_strip_le ((haccepts _).mp hn.isFinal)
    exact ⟨n, hn.pos, hn.le_length, (haccepts' _).mpr hlanguage, hn.mayEnd⟩
  · rintro hmodifier ⟨n, hn⟩
    -- the span without what the optional elements have read at its end
    obtain ⟨k, hk, hlanguage⟩ := exists_prefix_mem_language ((haccepts' _).mp hn.isFinal)
    rw [List.length_take, Nat.min_eq_left hn.le_length] at hk
    rw [List.take_take, Nat.min_eq_left hk] at hlanguage
    refine ⟨k, Nat.pos_of_ne_zero ?_, Nat.le_trans hk hn.le_length, (haccepts _).mpr hlanguage,
      mayEnd_drop hmodifier k⟩
    rintro rfl
    exact nil_notMem_language hrule htarget ht (hstrip ▸ hlanguage)

theorem rounding_strip_keeps_matches : rounding.Readable ∧ [] ∉ rounding.targetLanguage {} ∧
    ∃ t u, rounding.table {} {} = .ok t ∧
      rounding.table {} { stripOptionals := false } = .ok u ∧
      (u.match? {} [.wordStart, .char 'a', .char 'l']).isSome = true ∧
      (t.match? {} [.wordStart, .char 'a', .char 'l']).isSome = true := by
  have htarget : [] ∉ rounding.targetLanguage {} := by
    have heq : rounding.targetLanguage {} = {[.char 'a']} * 1 := rfl
    rw [heq, mul_one]
    exact nofun
  obtain ⟨t, ht⟩ : ∃ t, rounding.table {} {} = .ok t := exists_ok (by decide +kernel)
  obtain ⟨u, hu⟩ : ∃ u, rounding.table {} { stripOptionals := false } = .ok u :=
    exists_ok (by decide +kernel)
  have hmatch : (rounding.table {} { stripOptionals := false }).map (fun u =>
      (u.match? {} [.wordStart, .char 'a', .char 'l']).isSome) = .ok true := by decide +kernel
  rw [hu] at hmatch
  have hmatch := Except.ok.inj hmatch
  have hplain (c : Char) (hc : .char c ∈ [Symbol.wordStart, .char 'a', .char 'l']) :
      Text.isModifier c = false := by
    simp only [List.mem_cons, reduceCtorEq, Symbol.char.injEq, List.not_mem_nil, or_false,
      false_or] at hc
    rcases hc with rfl | rfl <;> decide
  exact ⟨rounding_readable, htarget, t, u, ht, hu, hmatch,
    (strip_keeps_matches rounding_readable htarget rfl rfl ht hu {} _).2 (.inr hplain) hmatch⟩

/-- `a/b/_(ʰ)`, which reads a modifier if there is one. -/
def aspiration : Rule where
  target := [.utterance ['a']]
  result := [.utterance ['b']]
  environment := [.placeholder, .optional [.utterance ['ʰ']]]

/-- `(a)/b/_(ac)`, the environment of which can read what the target can. -/
def absorption : Rule where
  target := [.optional [.utterance ['a']]]
  result := [.utterance ['b']]
  environment := [.placeholder, .optional [.utterance ['a', 'c']]]

/-- Stripping loses a match that could only end behind a modifier, and it finds one where the target
has nothing left to read on the longest span. -/
theorem strip_changes_matches :
    (∃ t u, aspiration.Readable ∧ aspiration.table {} {} = .ok t ∧
      aspiration.table {} { stripOptionals := false } = .ok u ∧
      (t.match? {} ((Symbol.coat ['a', 'ʰ']).drop 1)).isSome = false ∧
      (u.match? {} ((Symbol.coat ['a', 'ʰ']).drop 1)).isSome = true) ∧
    ∃ t u, absorption.Readable ∧ absorption.table {} {} = .ok t ∧
      absorption.table {} { stripOptionals := false } = .ok u ∧
      (t.match? {} ((Symbol.coat ['a', 'c']).drop 1)).isSome = true ∧
      (u.match? {} ((Symbol.coat ['a', 'c']).drop 1)).isSome = false := by
  have haspiration : aspiration.Readable := by
    have hread : Statement.readAll "a/b/_(ʰ)".toList = [⟨1, .ok (.rule aspiration .start)⟩] := by
      cbv
    exact ⟨_, _, _, hread ▸ List.mem_singleton_self _, rfl⟩
  have habsorption : absorption.Readable := by
    have hread : Statement.readAll "(a)/b/_(ac)".toList = [⟨1, .ok (.rule absorption .start)⟩] := by
      cbv
    exact ⟨_, _, _, hread ▸ List.mem_singleton_self _, rfl⟩
  have hmatches (rule : Rule) (symbols : List Symbol) (found found' : Bool)
      (ht : (rule.table {} {}).map (fun t => (t.match? {} symbols).isSome) = .ok found)
      (hu : (rule.table {} { stripOptionals := false }).map
        (fun u => (u.match? {} symbols).isSome) = .ok found') :
      ∃ t u, rule.table {} {} = .ok t ∧ rule.table {} { stripOptionals := false } = .ok u ∧
        (t.match? {} symbols).isSome = found ∧ (u.match? {} symbols).isSome = found' := by
    obtain ⟨t, ht, hfound⟩ := map_eq_ok.mp ht
    obtain ⟨u, hu, hfound'⟩ := map_eq_ok.mp hu
    exact ⟨t, u, ht, hu, hfound, hfound'⟩
  constructor
  · obtain ⟨t, u, hall⟩ := hmatches aspiration ((Symbol.coat ['a', 'ʰ']).drop 1) false true
      (by decide +kernel) (by decide +kernel)
    exact ⟨t, u, haspiration, hall⟩
  · obtain ⟨t, u, hall⟩ := hmatches absorption ((Symbol.coat ['a', 'c']).drop 1) true false
      (by decide +kernel) (by decide +kernel)
    exact ⟨t, u, habsorption, hall⟩

end Rule

end SoundChange
