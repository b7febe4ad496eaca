import SoundChange.Automaton.Table
import SoundChange.Application.Basic
import SoundChange.Rule.Assembly

/-!
# Sound laws

A rule together with the table that carries it out. `Rule.table` makes the table from the rule's
automaton; the declarations that the rule refers to are looked up once, then, and not again when
words are changed.
-/

namespace SoundChange

/-- How rules are made into tables. -/
structure CompileOptions where
  /-- The largest number of states of a table. -/
  maxStates : Nat := 100000
  /-- Optional elements at the end of an environment are left out. -/
  stripOptionals : Bool := true
  deriving DecidableEq, Repr

/-- The table that carries out a rule. -/
def Rule.table (i : Inventory) (rule : Rule) (options : CompileOptions) : Except RuleError Table :=
  match rule.automaton i options.stripOptionals with
  | .error e => .error e
  | .ok a =>
    match Table.ofAutomaton a options.maxStates with
    | .ok t => .ok t
    | .error e => .error (.automaton e)

/-- A rule, its place in the rule file, and its table. -/
structure SoundLaw where
  rule : Rule
  position : Position
  table : Table

namespace SoundLaw

/-- The automaton of the rule. -/
def automaton (l : SoundLaw) : Automaton := l.table.automaton

/-- The rule as a rule file has it. -/
def display (l : SoundLaw) : Text := l.rule.display

/-- Applies the rule to a word and records the changes. -/
def apply (l : SoundLaw) (options : ApplyOptions) (word : Text) : Text × List Change :=
  l.table.apply options word

end SoundLaw

end SoundChange
