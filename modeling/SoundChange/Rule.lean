import SoundChange.Order

/-!
# Rules of sound change

A rule has a target, the result that replaces it, and the environment in which it does so. Each is
a sequence of elements: literal text, references to sets of segments, optional and alternative
groups, and in the environment the edges of the word and the place of the target.

`Element.display` writes an element as a rule file has it; `Rule.display` joins the three parts.
-/

namespace SoundChange

/-- The name of a set of segments: a category, or the segments with or without a feature. -/
inductive SetRef where
  | category (name : Text)
  | feature (present : Bool) (name : Text)
  deriving DecidableEq, Repr

/-- An edge of the word. -/
inductive WordEdge where
  | start
  | finish
  deriving DecidableEq, Repr

/-- One element of a part of a rule. -/
inductive Element where
  /-- Literal text. -/
  | utterance (text : Text)
  /-- Any segment of a set. -/
  | set (ref : SetRef)
  /-- Any segment that belongs to all of several sets. -/
  | compound (refs : List SetRef)
  /-- The body or nothing. -/
  | optional (body : List Element)
  /-- One of the branches. -/
  | disjunction (branches : List (List Element))
  /-- An edge of the word. -/
  | boundary (edge : WordEdge)
  /-- The place of the target. -/
  | placeholder
  deriving Repr, Inhabited

/-- What changes, into what, and where. -/
structure Rule where
  target : List Element
  result : List Element
  environment : List Element
  deriving Repr, Inhabited

namespace SetRef

/-- The sign of a feature: plus if it is present. -/
def sign (present : Bool) : Char := if present then '+' else '-'

/-- The reference as it stands between brackets. -/
def display : SetRef → Text
  | category name => name
  | feature present name => sign present :: name

end SetRef

namespace Element

/-- The element names a set of segments. -/
def isSet : Element → Bool
  | set _ | compound _ => true
  | _ => false

def isBoundary : Element → Bool
  | boundary _ => true
  | _ => false

def isPlaceholder : Element → Bool
  | placeholder => true
  | _ => false

def isOptional : Element → Bool
  | optional _ => true
  | _ => false

/-- Several texts with another between each two. -/
def join (separator : Text) (texts : List Text) : Text := texts.intersperse separator |>.flatten

mutual

/-- The element as a rule file has it. -/
def display : Element → Text
  | utterance text => text
  | set (.category name) => name
  | set (.feature present name) => '[' :: SetRef.sign present :: name ++ [']']
  | compound refs => '[' :: join [' '] (refs.map SetRef.display) ++ [']']
  | optional body => '(' :: displayAll body ++ [')']
  | disjunction branches => '(' :: displayBranches branches ++ [')']
  | boundary _ => ['#']
  | placeholder => ['_']

/-- The elements of a sequence, one after the other. -/
def displayAll : List Element → Text
  | [] => []
  | e :: es => display e ++ displayAll es

/-- The branches of a disjunction with bars between them. -/
def displayBranches : List (List Element) → Text
  | [] => []
  | [branch] => displayAll branch
  | branch :: branches => displayAll branch ++ '|' :: displayBranches branches

end

end Element

/-- The rule with slashes between its parts. -/
def Rule.display (rule : Rule) : Text :=
  Element.displayAll rule.target ++ '/' :: Element.displayAll rule.result ++
    '/' :: Element.displayAll rule.environment

end SoundChange
