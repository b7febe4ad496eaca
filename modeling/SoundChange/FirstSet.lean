import SoundChange.Inventory
import SoundChange.Symbol

/-!
# First sets

The symbols with which what an element matches can begin, and whether the element can match nothing.
What a placeholder matches is given by the first set of the target.
-/

namespace SoundChange

/-- The symbols that can come first, and whether there may be none. -/
structure FirstSet where
  symbols : SortedSet Symbol
  nullable : Bool
  deriving DecidableEq

namespace FirstSet

/-- Nothing, as at the end of a rule. -/
def nothing : FirstSet := ⟨.empty, true⟩

/-- Exactly one of some symbols. -/
def ofSymbols (symbols : List Symbol) : FirstSet := ⟨.ofList symbols, false⟩

/-- The first set of something followed by something else. -/
def followedBy (f g : FirstSet) : FirstSet :=
  if f.nullable then ⟨f.symbols.union g.symbols, g.nullable⟩ else f

/-- The first set of something that may be left out. -/
def orNothing (f : FirstSet) : FirstSet := { f with nullable := true }

/-- The first set of a choice between two things. -/
def orElse (f g : FirstSet) : FirstSet := ⟨f.symbols.union g.symbols, f.nullable || g.nullable⟩

mutual

/-- The first set of an element. -/
def ofElement (i : Inventory) (target : Except RuleError FirstSet) :
    Element → Except RuleError FirstSet
  | .utterance text => .ok (ofSymbols (text.take 1 |>.map Symbol.char))
  | .set ref => (i.trie (.set ref)).map fun t => ofSymbols (t.firstChars.map Symbol.char)
  | .compound refs =>
    (i.trie (.compound refs)).map fun t => ofSymbols (t.firstChars.map Symbol.char)
  | .optional body => (ofSequence i target body).map orNothing
  | .disjunction branches => ofBranches i target branches
  | .boundary .start => .ok (ofSymbols [.wordStart])
  | .boundary .finish => .ok (ofSymbols [.wordEnd])
  | .placeholder => target

/-- The first set of a sequence; what comes after the first element that must match is not looked
at. -/
def ofSequence (i : Inventory) (target : Except RuleError FirstSet) :
    List Element → Except RuleError FirstSet
  | [] => .ok nothing
  | e :: es =>
    match ofElement i target e with
    | .error err => .error err
    | .ok f => if f.nullable then (ofSequence i target es).map f.followedBy else .ok f

/-- The first set of a choice between branches. -/
def ofBranches (i : Inventory) (target : Except RuleError FirstSet) :
    List (List Element) → Except RuleError FirstSet
  | [] => .ok (ofSymbols [])
  | branch :: branches =>
    match ofSequence i target branch with
    | .error err => .error err
    | .ok f => (ofBranches i target branches).map f.orElse

end

/-- The first set of a target; a placeholder in it stands for nothing. -/
def ofTarget (i : Inventory) (target : List Element) : Except RuleError FirstSet :=
  ofSequence i (.ok nothing) target

end FirstSet

end SoundChange
