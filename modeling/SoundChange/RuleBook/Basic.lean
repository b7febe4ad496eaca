import SoundChange.RuleBook.Diagnostic
import SoundChange.SoundLaw
import SoundChange.Statement.Reader

/-!
# Rule books

A rule file, read: the sets declared in it and its sound laws in order. A statement that cannot be
read or carried out is left out and reported; the others are not affected.

`RuleBook.apply` takes a word through all laws, each of which gets what the one before it gives.
-/

namespace SoundChange

/-- The declared sets, and the laws in the order of the file. -/
structure RuleBook where
  inventory : Inventory := {}
  laws : List SoundLaw := []

namespace RuleBook

/-- Carries out a statement: declares a set, or makes a law of a rule. -/
def add (options : CompileOptions) (b : RuleBook) : Statement → Except RuleError RuleBook
  | .category c =>
    match b.inventory.declareCategory c with
    | .ok inventory => .ok { b with inventory }
    | .error e => .error e
  | .featureSet f => .ok { b with inventory := b.inventory.declareFeatureSet f }
  | .rule rule position =>
    match rule.table b.inventory options with
    | .ok table => .ok { b with laws := b.laws ++ [⟨rule, position, table⟩] }
    | .error e => .error e

/-- Carries out an entry of a rule file, or says what is wrong with it. -/
def enter (options : CompileOptions) (b : RuleBook) (entry : Statement.Entry) :
    Except RuleError RuleBook :=
  match entry.result with
  | .ok s => b.add options s
  | .error e => .error e

/-- Carries out entries one by one; those that fail are reported and leave the book as it is. -/
def enterAll (options : CompileOptions) (b : RuleBook) :
    List Statement.Entry → RuleBook × List Diagnostic
  | [] => (b, [])
  | entry :: entries =>
    match b.enter options entry with
    | .ok later => enterAll options later entries
    | .error e =>
      let (last, diagnostics) := enterAll options b entries
      (last, .ofError entry.line e :: diagnostics)

/-- The book of a rule file, and what is wrong with the file. -/
def compile (options : CompileOptions) (source : Text) : RuleBook × List Diagnostic :=
  enterAll options {} (Statement.readAll source)

/-- Takes a word through all laws. -/
def apply (b : RuleBook) (options : ApplyOptions) (word : Text) : Text :=
  b.laws.foldl (fun current law => (law.apply options current).1) word

end RuleBook

end SoundChange
