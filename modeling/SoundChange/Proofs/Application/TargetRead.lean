import SoundChange.Proofs.Application.FirstPath
import SoundChange.Proofs.Application.Stripping

/-!
# Where a rule finds a match

A rule takes the longest span first and then the automaton's path through it, and it makes a match
of them only if the target has read something on that path. Other spans and other paths do not
count. `Automaton.TargetReads` says of a path that the target reads something on it:

* then the target ends behind some symbols (`Automaton.Run.exists_targetEnd`);
* otherwise the path changes no text (`Output.Unread`), and as no change of a rule is one of an
  empty text (`Rule.WellFormed.replaced_ne_nil`), the target has no end.

So there is a match just where the target reads something on the path through the longest span
(`Rule.match_found_iff`).
-/

namespace SoundChange

variable {a : Automaton} {s : Step} {w : List Symbol} {path : List Step} {f : StateId}

/-- On the path something is read that a transform is attached to. In the automaton of a rule only
the target has such transforms. -/
def Automaton.TargetReads (a : Automaton) (path : List Step) : Prop :=
  ∃ s ∈ path, s.symbol ≠ .lambda ∧ (a.attached? s.source s.symbol).isSome = true

instance : Decidable (a.TargetReads path) := inferInstanceAs (Decidable (∃ s ∈ path, _))

namespace Output

variable {o : Output}

/-! ## Where the target reads something -/

/-- The target has read something, and ends behind some symbols so far. -/
def Begun (o : Output) : Prop := 0 < o.position ∧ ∃ n text, o.targetEnd = some (n, text) ∧ 0 < n

theorem begun_markTarget (h : 0 < o.position) : o.markTarget.Begun :=
  ⟨h, o.position, o.written, rfl, h⟩

/-- Further steps do not take the end of the target back. -/
theorem Begun.step (h : o.Begun) (s : Step) : (o.step a s).Begun := by
  obtain ⟨hpos, hend⟩ := h
  unfold Output.step
  split
  · unfold passSilently
    split
    · rename_i t _
      exact begun_markTarget ((position_switchUnit t.unit).symm ▸ hpos)
    · exact ⟨hpos, hend⟩
  · unfold readSymbol
    dsimp only
    split
    · exact ⟨Nat.succ_pos _, by rw [← targetEnd_release (a := a)] at hend; exact hend⟩
    split
    · exact ⟨Nat.succ_pos _, hend⟩
    split
    · exact begun_markTarget (Nat.succ_pos _)
    · exact begun_markTarget (Nat.succ_pos _)

theorem begun_step (ha : a.Registered) (hs : s.symbol ≠ .lambda)
    (hattached : (a.attached? s.source s.symbol).isSome = true) : (o.step a s).Begun := by
  obtain ⟨n, hn⟩ := Option.isSome_iff_exists.mp hattached
  obtain ⟨t, ht⟩ := ha.exists_transform hn
  rw [Output.step, if_neg hs, readSymbol, hn]
  dsimp only
  rw [ht]
  dsimp only
  split
  · exact begun_markTarget (Nat.succ_pos _)
  · exact begun_markTarget (Nat.succ_pos _)

theorem Begun.foldl (h : o.Begun) (path : List Step) : (path.foldl (Output.step a) o).Begun := by
  induction path generalizing o with
  | nil => exact h
  | cons s path ih => exact ih (h.step s)

/-- Where the target reads something, it ends behind some symbols. -/
theorem exists_targetEnd (ha : a.Registered) (h : a.TargetReads path) :
    ∃ n text, (ofPath a path).targetEnd = some (n, text) ∧ 0 < n := by
  obtain ⟨s, hs, hsymbol, hattached⟩ := h
  obtain ⟨before, after, rfl⟩ := List.append_of_mem hs
  rw [ofPath, targetEnd_release, List.foldl_append, List.foldl_cons]
  exact ((begun_step ha hsymbol hattached).foldl after).2

/-! ## Where it does not -/

/-- No text is held or has been changed, and where nothing is recorded the target has no end. -/
structure Unread (o : Output) : Prop where
  held : o.held = []
  replaced : ∀ c ∈ o.changes, c.replaced = []
  targetEnd : o.changes = [] → o.targetEnd = none

theorem unread_empty : Unread {} := ⟨rfl, nofun, fun _ => rfl⟩

/-- A step that no transform is attached to changes no text. -/
theorem Unread.step (h : o.Unread)
    (hs : s.symbol ≠ .lambda → a.attached? s.source s.symbol = none) : (o.step a s).Unread := by
  unfold Output.step
  split
  · unfold passSilently
    split
    · rename_i t _
      have hswitch : o.switchUnit a t.unit = o := by
        rw [switchUnit, release_of_held h.held, ite_self]
      rw [hswitch]
      refine ⟨rfl, fun c hc => ?_, fun hnil => absurd hnil (List.concat_ne_nil _ _)⟩
      rcases List.mem_append.mp hc with hc | hc
      · exact h.replaced c hc
      · rw [List.mem_singleton.mp hc]
        exact List.append_eq_nil_iff.mpr ⟨h.held, rfl⟩
    · exact h
  · rename_i hsymbol
    rw [readSymbol, hs hsymbol, release_of_held h.held]
    exact ⟨h.held, h.replaced, h.targetEnd⟩

theorem unread_ofPath (h : ¬ a.TargetReads path) : (ofPath a path).Unread := by
  have hall : ∀ s ∈ path, s.symbol ≠ .lambda → a.attached? s.source s.symbol = none := by
    intro s hs hsymbol
    rw [← Option.not_isSome_iff_eq_none]
    exact fun hattached => h ⟨s, hs, hsymbol, hattached⟩
  have hfold : ∀ o : Output, o.Unread → (path.foldl (step a) o).Unread := by
    clear h
    induction path with
    | nil => exact fun o ho => ho
    | cons s path ih =>
      rw [List.forall_mem_cons] at hall
      exact fun o ho => ih hall.2 _ (ho.step hall.1)
  have hunread := hfold {} unread_empty
  rwa [ofPath, release_of_held hunread.held]

end Output

/-! ## Changes of a rule -/

section Derivations

variable {i : Inventory} {rule : Rule}

theorem replaced_ne_nil_of_rendered {e : Element} {text : Text} {m : Option Emission}
    {ps : List Piece} (h : Rendered i e text m ps) (hne : text ≠ []) :
    ∀ c, Piece.changed c ∈ ps → c.replaced ≠ [] := by
  intro c hc
  cases h with
  | kept =>
    obtain ⟨_, _, heq⟩ := List.mem_map.mp hc
    cases heq
  | changed =>
    cases List.mem_singleton.mp hc
    exact hne

mutual

/-- Where no literal is empty, no change is one of an empty text. -/
theorem replaced_ne_nil_of_derives (htarget : Element.EveryOf (· ≠ .utterance []) rule.target) :
    ∀ {m : Option Emission} {e : Element} {ps : List Piece}, e.Every (· ≠ .utterance []) →
      Derives i rule m e ps → ∀ c, Piece.changed c ∈ ps → c.replaced ≠ []
  | _, _, _, he, .text h =>
    replaced_ne_nil_of_rendered h fun hnil => he (congrArg Element.utterance hnil)
  | _, _, _, _, .segment _ _ _ hne h => replaced_ne_nil_of_rendered h hne
  | _, _, _, _, .leftOut => nofun
  | _, _, _, he, .taken h => replaced_ne_nil_of_derivesAll htarget he.2 h
  | _, _, _, he, .branch hbranch h =>
    replaced_ne_nil_of_derivesAll htarget (Element.everyAmong_iff.mp he.2 _ hbranch) h
  | _, _, _, _, .boundary => fun _ hc => nomatch List.mem_singleton.mp hc
  | _, _, _, _, .target h => replaced_ne_nil_of_derivesAll htarget htarget h

theorem replaced_ne_nil_of_derivesAll (htarget : Element.EveryOf (· ≠ .utterance []) rule.target) :
    ∀ {ms : List Emission} {es : List Element} {ps : List Piece},
      Element.EveryOf (· ≠ .utterance []) es → DerivesAll i rule ms es ps →
      ∀ c, Piece.changed c ∈ ps → c.replaced ≠ []
  | _, _, _, _, .nil => nofun
  | _, _, _, hes, .cons h hs => fun c hc => (List.mem_append.mp hc).elim
    (replaced_ne_nil_of_derives htarget hes.1 h c)
    (replaced_ne_nil_of_derivesAll htarget hes.2 hs c)

end

end Derivations

namespace Rule

variable {i : Inventory} {rule : Rule} {strip : Bool} {options : CompileOptions} {t : Table}
  {applyOptions : ApplyOptions} {symbols : List Symbol} {n : Nat}

/-- A rule replaces no empty text. -/
theorem WellFormed.replaced_ne_nil (hrule : rule.WellFormed) {ps : List Piece}
    (h : rule.Derivation i strip ps) : ∀ c, Piece.changed c ∈ ps → c.replaced ≠ [] :=
  replaced_ne_nil_of_derivesAll (hrule.target.imp fun _ he => he.ne_nil)
    (Element.everyOf_iff.mpr fun e he =>
      Element.everyOf_iff.mp hrule.environment e (environmentFor_subset he)) h

/-- The target ends behind some symbols just where it reads something. -/
theorem WellFormed.targetEnd_iff (hrule : rule.WellFormed) (h : rule.automaton i strip = .ok a)
    (hrun : a.Run Automaton.start path w f) (hfinal : a.isFinal f = true) :
    (∃ n text, (Output.ofPath a path).targetEnd = some (n, text) ∧ 0 < n) ↔
      a.TargetReads path := by
  constructor
  · rintro ⟨n, text, hend, -⟩
    by_contra hreads
    have hunread := Output.unread_ofPath hreads
    obtain ⟨ps, hps, -, -, hchanges⟩ := hrule.output_of_run h hrun hfinal
    have hnil : (Output.ofPath a path).changes = [] := by
      rw [List.eq_nil_iff_forall_not_mem]
      intro c hc
      have hempty := hunread.replaced c hc
      rw [hchanges] at hc
      obtain ⟨p, hp, hchange⟩ := List.mem_filterMap.mp hc
      cases p with
      | kept => cases hchange
      | changed d =>
        cases hchange
        exact hrule.replaced_ne_nil hps c hp hempty
    rw [hunread.targetEnd hnil] at hend
    cases hend
  · exact Output.exists_targetEnd (Assembly.registered_of_automaton h)

/-- Where there is a span, a match is found if and only if the target reads something on the path
through the longest one. That is so in any case where the target cannot match nothing. -/
theorem match_found_iff (hrule : rule.Readable) (h : rule.table i options = .ok t)
    (hspan : t.Spans applyOptions t.start symbols n) :
    ∃ longest path, t.longest applyOptions symbols = some longest ∧ n ≤ longest ∧
      t.automaton.acceptingPath (symbols.take longest) = some path ∧
      ((t.match? applyOptions symbols).isSome = true ↔ t.automaton.TargetReads path) ∧
      ([] ∉ rule.targetLanguage i → (t.match? applyOptions symbols).isSome = true) := by
  obtain ⟨longest, path, hlongest, hle, hpath⟩ := exists_path_of_spans hrule h hspan
  obtain ⟨f, hrun, hfinal⟩ := Automaton.run_of_acceptingPath hpath
  refine ⟨longest, path, hlongest, hle, hpath, ?_, fun htarget =>
    (match?_isSome_iff hrule htarget h).mpr ⟨n, hspan⟩⟩
  rw [← hrule.wellFormed.targetEnd_iff (table_eq_ok h).1 hrun hfinal]
  constructor
  · intro hmatch
    obtain ⟨found, hfound⟩ := Option.isSome_iff_exists.mp hmatch
    obtain ⟨longest', path', m, text, hlongest', hpath', hend, hpos, -⟩ :=
      Table.match?_eq_some_iff.mp hfound
    obtain rfl := Option.some.inj (hlongest.symm.trans hlongest')
    obtain rfl := Option.some.inj (hpath.symm.trans hpath')
    exact ⟨m, text, hend, hpos⟩
  · rintro ⟨m, text, hend, hpos⟩
    exact Option.isSome_iff_exists.mpr ⟨_, Table.match?_eq_some_iff.mpr
      ⟨longest, path, m, text, hlongest, hpath, hend, hpos, rfl⟩⟩

theorem rounding_match_found : rounding.Readable ∧ ∃ t, rounding.table {} {} = .ok t ∧
    t.Spans {} t.start [.wordStart, .char 'a', .char 'l'] 2 ∧
    ∃ longest path, t.longest {} [.wordStart, .char 'a', .char 'l'] = some longest ∧
      2 ≤ longest ∧
      t.automaton.acceptingPath ([.wordStart, .char 'a', .char 'l'].take longest) = some path ∧
      ((t.match? {} [.wordStart, .char 'a', .char 'l']).isSome = true ↔
        t.automaton.TargetReads path) := by
  obtain ⟨t, ht⟩ : ∃ t, rounding.table {} {} = .ok t := exists_ok (by decide +kernel)
  have hspan : (rounding.table {} {}).map (fun t => decide
      (t.Spans {} t.start [.wordStart, .char 'a', .char 'l'] 2)) = .ok true := by decide +kernel
  rw [ht] at hspan
  have hspan := of_decide_eq_true (Except.ok.inj hspan)
  obtain ⟨longest, path, hlongest, hle, hpath, hmatch, -⟩ :=
    match_found_iff rounding_readable ht hspan
  exact ⟨rounding_readable, t, ht, hspan, longest, path, hlongest, hle, hpath, hmatch⟩

/-- `(a)/b/_(ac|)`, the environment of which reads more if the target leaves `a` to it. -/
def greedyEnvironment : Rule where
  target := [.optional [.utterance ['a']]]
  result := [.utterance ['b']]
  environment := [.placeholder, .disjunction [[.utterance ['a', 'c']], []]]

/-- `(|a)/b/_(a|)`, the target of which rather reads nothing. -/
def modestTarget : Rule where
  target := [.disjunction [[], [.utterance ['a']]]]
  result := [.utterance ['b']]
  environment := [.placeholder, .disjunction [[.utterance ['a']], []]]

/-- In the automata of both, the edges of a path on which the target reads `a` and the environment
nothing. -/
def targetOverA : List Edge := [⟨.lambda, 3⟩, ⟨.char 'a', 4⟩, ⟨.lambda, 2⟩, ⟨.lambda, 5⟩]

/-- A table is found to miss a match by going through it. -/
theorem exists_missed_of_table (rule : Rule) (symbols : List Symbol)
    (h : (rule.table {} {}).map (fun t => decide (t.Spans {} t.start symbols 1 ∧
      t.automaton.Admits Automaton.start [.char 'a'] targetOverA ∧
      t.automaton.TargetReads (Automaton.steps Automaton.start targetOverA) ∧
      t.match? {} symbols = none)) = .ok true) :
    ∃ t, rule.table {} {} = .ok t ∧ t.Spans {} t.start symbols 1 ∧
      t.automaton.Admits Automaton.start [.char 'a'] targetOverA ∧
      t.automaton.TargetReads (Automaton.steps Automaton.start targetOverA) ∧
      t.match? {} symbols = none := by
  obtain ⟨t, ht, hall⟩ := map_eq_ok.mp h
  exact ⟨t, ht, of_decide_eq_true hall⟩

/-- No match is found where the target could read something on a shorter span, or on another path
through the same span. -/
theorem match_missed :
    (∃ t es, greedyEnvironment.Readable ∧ greedyEnvironment.table {} {} = .ok t ∧
      t.Spans {} t.start ((Symbol.coat ['a', 'c']).drop 1) 1 ∧
      t.automaton.Admits Automaton.start [.char 'a'] es ∧
      t.automaton.TargetReads (Automaton.steps Automaton.start es) ∧
      t.match? {} ((Symbol.coat ['a', 'c']).drop 1) = none) ∧
    ∃ t es, modestTarget.Readable ∧ modestTarget.table {} {} = .ok t ∧
      t.Spans {} t.start ((Symbol.coat ['a']).drop 1) 1 ∧
      t.automaton.Admits Automaton.start [.char 'a'] es ∧
      t.automaton.TargetReads (Automaton.steps Automaton.start es) ∧
      t.match? {} ((Symbol.coat ['a']).drop 1) = none := by
  have hgreedy : greedyEnvironment.Readable := by
    have hread : Statement.readAll "(a)/b/_(ac|)".toList =
        [⟨1, .ok (.rule greedyEnvironment .start)⟩] := by cbv
    exact ⟨_, _, _, hread ▸ List.mem_singleton_self _, rfl⟩
  have hmodest : modestTarget.Readable := by
    have hread : Statement.readAll "(|a)/b/_(a|)".toList =
        [⟨1, .ok (.rule modestTarget .start)⟩] := by cbv
    exact ⟨_, _, _, hread ▸ List.mem_singleton_self _, rfl⟩
  constructor
  · obtain ⟨t, hmissed⟩ := exists_missed_of_table greedyEnvironment
      ((Symbol.coat ['a', 'c']).drop 1) (by decide +kernel)
    exact ⟨t, targetOverA, hgreedy, hmissed⟩
  · obtain ⟨t, hmissed⟩ := exists_missed_of_table modestTarget
      ((Symbol.coat ['a']).drop 1) (by decide +kernel)
    exact ⟨t, targetOverA, hmodest, hmissed⟩

end Rule

end SoundChange
