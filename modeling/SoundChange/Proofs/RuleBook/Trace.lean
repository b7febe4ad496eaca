import SoundChange.Proofs.Application.Account
import SoundChange.Proofs.Rule.Language
import SoundChange.Proofs.Rule.Registered
import SoundChange.Proofs.RuleBook.Entries
import SoundChange.RuleBook.Trace

/-!
# Traces of rule books

The tables of a rule book are made from automata that attach only registered transforms, so in a
trace of the book the changes of every law account for what the law made of its input
(`changes_account_for_output`).

A trace goes the way that a word takes when it is only changed: the laws hand it on from one to the
next, and the last one gives the result (`RuleBook.trace_follows_apply`).
-/

namespace SoundChange

namespace RuleBook

variable {options : ApplyOptions} {compileOptions : CompileOptions} {source word : Text}
  {law : SoundLaw} {laws : List SoundLaw} {l : LawTrace}

/-- The laws of a compiled book have registered transforms. -/
theorem registered_of_compile (h : law ∈ (compile compileOptions source).1.laws) :
    law.table.automaton.Registered := by
  obtain ⟨n, hn⟩ := List.mem_iff_getElem?.mp h
  obtain ⟨_, _, _, -, -, -, htable⟩ := exists_entry_of_compile hn
  exact Assembly.registered_of_automaton (Rule.table_eq_ok htable).1

/-- An entry of a trace tells what one of the laws does to some word. -/
theorem exists_law_of_mem_traceLaws (h : l ∈ traceLaws options word laws) :
    ∃ law ∈ laws, l = law.trace options l.input := by
  induction laws generalizing word with
  | nil => cases h
  | cons law laws ih =>
    rcases List.mem_cons.mp h with rfl | h
    · exact ⟨law, List.mem_cons_self .., rfl⟩
    · obtain ⟨later, hlater, hl⟩ := ih h
      exact ⟨later, List.mem_cons_of_mem _ hlater, hl⟩

/-- There is one entry for each law, in their order, and it tells what the law makes of its
input. -/
theorem forall₂_traceLaws : ∀ (laws : List SoundLaw) (word : Text),
    List.Forall₂ (fun law l => l.rule = law.display ∧
      (l.output, l.changes) = law.apply options l.input) laws (traceLaws options word laws)
  | [], _ => .nil
  | _ :: laws, _ => .cons ⟨rfl, rfl⟩ (forall₂_traceLaws laws _)

/-- The last entry gives what becomes of the word. -/
theorem getLast?_traceLaws : ∀ (laws : List SoundLaw) (word : Text),
    ((traceLaws options word laws).getLast?.map LawTrace.output).getD word =
      laws.foldl (fun current law => (law.apply options current).1) word
  | [], _ => rfl
  | law :: laws, word => by
    rw [List.foldl_cons, ← getLast?_traceLaws laws, traceLaws, List.getLast?_cons]
    have houtput : (law.trace options word).output = (law.apply options word).1 := rfl
    rw [← houtput]
    cases (traceLaws options (law.trace options word).output laws).getLast? <;> rfl

/-- Each law takes up what the one before it has given. -/
theorem map_input_traceLaws : ∀ (laws : List SoundLaw) (word : Text),
    (traceLaws options word laws).map LawTrace.input ++
        [laws.foldl (fun current law => (law.apply options current).1) word] =
      word :: (traceLaws options word laws).map LawTrace.output
  | [], _ => rfl
  | _ :: laws, word => congrArg (word :: ·) (map_input_traceLaws laws _)

theorem result_trace (b : RuleBook) : (b.trace options word).result = b.apply options word :=
  getLast?_traceLaws b.laws word

end RuleBook

/-- The changes that are recorded account for the output, whatever the options: those of every table
that is made from an automaton with registered transforms, and in a trace those of every law of a
rule book. Where there are none, the word has stayed as it was. -/
theorem changes_account_for_output :
    (∀ (a : Automaton) (limit : Nat) (t : Table), a.Registered → Table.ofAutomaton a limit = .ok t →
      ∀ (options : ApplyOptions) (word : Text),
        Accounts (t.apply options word).2 word (t.apply options word).1 ∧
          ((t.apply options word).2 = [] → (t.apply options word).1 = word)) ∧
    ∀ (compileOptions : CompileOptions) (source : Text) (options : ApplyOptions) (word : Text),
      ∀ l ∈ ((RuleBook.compile compileOptions source).1.trace options word).laws,
        Accounts l.changes l.input l.output ∧ (l.changed = false → l.output = l.input) := by
  constructor
  · intro a limit t ha ht options word
    have haccounts : Accounts (t.apply options word).2 word (t.apply options word).1 :=
      Table.accounts_apply (Table.automaton_eq ht ▸ ha) word
    refine ⟨haccounts, fun hnone => ?_⟩
    rw [hnone] at haccounts
    exact haccounts.eq_of_nil
  · intro compileOptions source options word l hl
    obtain ⟨law, hlaw, hl⟩ := RuleBook.exists_law_of_mem_traceLaws hl
    have haccounts : Accounts l.changes l.input l.output := by
      rw [hl]
      exact Table.accounts_apply (RuleBook.registered_of_compile hlaw) l.input
    refine ⟨haccounts, fun hchanged => ?_⟩
    have hnone : l.changes = [] := by simpa [LawTrace.changed] using hchanged
    rw [hnone] at haccounts
    exact haccounts.eq_of_nil

/-- The trace of a word agrees with what becomes of the word: it has the same result and one entry
for each law in their order, which tells what the law gives for its input. The first input is the
word, each later one the output before it, and the last output the result. The listing leaves out
the entries without changes, and these have left the word as it was. -/
theorem RuleBook.trace_follows_apply (compileOptions : CompileOptions) (source : Text)
    (options : ApplyOptions) (word : Text) :
    let book := (compile compileOptions source).1
    let trace := book.trace options word
    trace.result = book.apply options word ∧
    List.Forall₂ (fun law l => l.rule = law.display ∧
      (l.output, l.changes) = law.apply options l.input) book.laws trace.laws ∧
    trace.laws.map LawTrace.input ++ [trace.result] = word :: trace.laws.map LawTrace.output ∧
    trace.display = arrow word trace.result ++
      (trace.laws.filter fun l => l.changes ≠ []).flatMap LawTrace.display ∧
    ∀ l ∈ trace.laws, l.changes = [] → l.output = l.input := by
  intro book trace
  have hresult : trace.result = book.apply options word := result_trace book
  refine ⟨hresult, forall₂_traceLaws book.laws word, ?_, ?_, fun l hl hnone => ?_⟩
  · rw [hresult]
    exact map_input_traceLaws book.laws word
  · have hshown : LawTrace.changed = fun l => decide (l.changes ≠ []) := by
      funext l
      cases hchanges : l.changes <;> simp [LawTrace.changed, hchanges]
    rw [WordTrace.display, hshown]
    rfl
  · obtain ⟨law, hlaw, hl⟩ := exists_law_of_mem_traceLaws hl
    have haccounts : Accounts (law.table.apply options l.input).2 l.input
        (law.table.apply options l.input).1 :=
      Table.accounts_apply (registered_of_compile hlaw) l.input
    have hchanges : (law.table.apply options l.input).2 = [] :=
      (congrArg LawTrace.changes hl).symm.trans hnone
    rw [hchanges] at haccounts
    exact (congrArg LawTrace.output hl).trans haccounts.eq_of_nil

/-- Reads `t` or `ts`, and writes `x` for either: `t` is held back until it is known which. -/
def affricate : Automaton :=
  ((((((((Automaton.empty.addState true).addState true).addTransform (.null ['t'] ['x'] 0)
    ).addTransform (.ordinary ['x'] ['t'] ['x'] 0)).addEdge Automaton.start (.char 't') 2).attach
    Automaton.start (.char 't') 0).addEdge 2 (.char 's') 3).attach 2 (.char 's') 1).addEdge 2
    .lambda 3 |>.attachDefault 2 1 |>.setFinal 3

theorem affricate_changes_account : affricate.Registered ∧ ∃ t,
    Table.ofAutomaton affricate 8 = .ok t ∧
    (t.apply {} "tsat".toList).1 = "xax".toList ∧
    Accounts (t.apply {} "tsat".toList).2 "tsat".toList (t.apply {} "tsat".toList).1 := by
  have hregistered : affricate.Registered := by
    refine .setFinal (.attachDefault (.addEdge (.attach (.addEdge (.attach (.addEdge (.addTransform
      (.addTransform (.addState (.addState Automaton.registered_empty true) true) _) _)) ?_)) ?_))
      ?_)
    all_goals decide
  obtain ⟨t, ht⟩ : ∃ t, Table.ofAutomaton affricate 8 = .ok t := exists_ok (by decide +kernel)
  have houtput : (Table.ofAutomaton affricate 8).map (fun t => (t.apply {} "tsat".toList).1) =
      .ok "xax".toList := by decide +kernel
  rw [ht] at houtput
  exact ⟨hregistered, t, ht, Except.ok.inj houtput,
    (changes_account_for_output.1 affricate 8 t hregistered ht {} "tsat".toList).1⟩

end SoundChange
