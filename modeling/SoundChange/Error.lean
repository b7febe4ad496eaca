import SoundChange.FeatureSet
import SoundChange.Token

/-!
# Errors

What can be wrong with a statement: a stray character, a token out of place, a rule that makes no
sense, a name that is not declared, a result that cannot be aligned, or an automaton that outgrows
its limit. Every kind has its sentence in `RuleError.message`; the kinds that arise while a
statement is read also have a place in the file, `RuleError.position?`.
-/

namespace SoundChange

/-- The part of a statement that is being read. -/
inductive Production where
  | category
  | featureSet
  | member
  | rule
  | target
  | result
  | environment
  | setIdentifier
  deriving DecidableEq, Repr

/-- The name of a production in messages. -/
def Production.name : Production → String
  | category => "Category"
  | featureSet => "FeatureSet"
  | member => "Member"
  | rule => "Rule"
  | target => "RuleTarget"
  | result => "RuleResult"
  | environment => "RuleEnvironment"
  | setIdentifier => "SetIdentifier"

/-- What is wrong with a statement whose tokens are each in place. -/
inductive Defect where
  | compoundInCategory
  | compoundInResult
  | categoryInResult
  | emptyTarget
  | placeholderCount
  | optionalPlaceholder
  | optionalBoundary
  | innerBoundary
  | emptyCompound
  | conflict (conflict : FeatureConflict)
  deriving DecidableEq, Repr

/-- The sentence that reports a defect. -/
def Defect.message : Defect → String
  | compoundInCategory => "Category member may not be a compound set identifier."
  | compoundInResult => "Result may not contain a compound set identifier."
  | categoryInResult => "Result may not contain a category identifier."
  | emptyTarget => "Target segment may not be empty."
  | placeholderCount => "Environment must contain exactly one placeholder."
  | optionalPlaceholder => "Placeholder cannot be optional."
  | optionalBoundary => "Boundary cannot be optional."
  | innerBoundary => "Boundary token may only appear at each end of the environment segment."
  | emptyCompound => "Compound set identifier cannot be empty."
  | conflict c => c.message

/-- Why a set of segments is not known. -/
inductive Undeclared where
  | category (name : Text)
  | featureSet (name : Text)
  deriving DecidableEq, Repr

/-- Why no automaton was built. -/
inductive AutomatonError where
  /-- More deterministic states than allowed. -/
  | stateLimit (limit : Nat)
  /-- A merged state without members. -/
  | emptyMerge
  deriving DecidableEq, Repr

/-- The sentence that reports why no automaton was built. -/
def AutomatonError.message : AutomatonError → String
  | stateLimit limit => "determinization exceeded the limit of " ++ toString limit ++ " states"
  | emptyMerge => "cannot merge an empty state set"

/-- Why a statement has no effect. -/
inductive RuleError where
  /-- A character without a use. -/
  | stray (text : Text) (position : Position)
  /-- A token that the production has no place for. -/
  | unexpected (production : Production) (expected : List TokenKind) (found : Text)
      (position : Position)
  | defective (production : Production) (defect : Defect) (position : Position)
  | undeclared (reference : Undeclared)
  /-- A category that takes over its own members before it has any. -/
  | cyclic (name : Text)
  /-- A surplus result element that is no literal text. -/
  | unaligned (rule : Text)
  | automaton (error : AutomatonError)
  deriving DecidableEq, Repr

/-- Several alternatives, the last one after "or". -/
def alternatives : List String → String
  | [] => ""
  | [a] => a
  | [a, b] => a ++ " or " ++ b
  | a :: rest => a ++ ", " ++ alternatives rest

/-- The place in a sentence. -/
def Position.display (p : Position) : String :=
  "line " ++ toString p.line ++ ", column " ++ toString p.column

/-- The beginning of a sentence about a place. -/
def Position.heading (p : Position) : String :=
  "Line " ++ toString p.line ++ ", column " ++ toString p.column

/-- The sentence about a name that is not declared. -/
def Undeclared.message : Undeclared → String
  | category name => "Undefined category '" ++ .ofList name ++ "'."
  | featureSet name => "Undefined feature-set '" ++ .ofList name ++ "'."

namespace RuleError

/-- The place in the file, for errors that arise while a statement is read. -/
def position? : RuleError → Option Position
  | stray _ p | unexpected _ _ _ p | defective _ _ p => some p
  | _ => none

/-- The sentence that reports an error. -/
def message : RuleError → String
  | stray text p => "Unexpected character '" ++ .ofList text ++ "' at " ++ p.display ++ "."
  | unexpected production expected found p =>
    "At " ++ p.display ++ " in '" ++ production.name ++ "': Expected " ++
      alternatives (expected.map TokenKind.describe) ++ ", got '" ++ .ofList found ++ "'."
  | defective production defect p =>
    p.heading ++ " in '" ++ production.name ++ "': " ++ defect.message
  | undeclared reference => reference.message
  | cyclic name => "Category '" ++ .ofList name ++ "' includes itself."
  | unaligned rule =>
    "Result of '" ++ .ofList rule ++
      "' has a feature reference with no target segment to apply to."
  | automaton error => error.message

/-- The error of a token out of place: a stray character is reported as such. -/
def ofToken (production : Production) (expected : List TokenKind) (t : Token) : RuleError :=
  if t.kind = .stray then .stray t.text t.position
  else .unexpected production expected t.shown t.position

end RuleError

end SoundChange
