import SoundChange.Error
import SoundChange.Statement
import SoundChange.Trie

/-!
# The inventory

What a rule can refer to by name. A category is resolved when it is declared: its members are
listed then, with those of every set that it includes, so a later declaration of an included name
does not change it. The last declaration of a name is the one that counts.
-/

namespace SoundChange

/-- The declared categories, resolved, and the declared feature-sets; the latest first. -/
structure Inventory where
  categories : List (Text × SortedSet Text) := []
  featureSets : List FeatureSet := []

namespace Inventory

/-- The members of a declared category. -/
def category? (i : Inventory) (name : Text) : Option (SortedSet Text) :=
  (i.categories.find? fun c => c.1 = name).map (·.2)

/-- A declared feature-set. -/
def featureSet? (i : Inventory) (name : Text) : Option FeatureSet :=
  i.featureSets.find? fun f => f.name = name

/-- A declared feature-set; it is an error if there is none. -/
def featureSet (i : Inventory) (name : Text) : Except RuleError FeatureSet :=
  match i.featureSet? name with
  | some f => .ok f
  | none => .error (.undeclared (.featureSet name))

/-- The segments of a set. A bare name is a category, or else all members of a feature-set. -/
def members (i : Inventory) : SetRef → Except RuleError (SortedSet Text)
  | .category name =>
    match i.category? name with
    | some members => .ok members
    | none =>
      match i.featureSet? name with
      | some f => .ok f.members
      | none => .error (.undeclared (.category name))
  | .feature present name => (i.featureSet name).map fun f => f.membersFor present

/-- The segments of `acc` that belong to all of several sets. -/
def meet (i : Inventory) (acc : SortedSet Text) : List SetRef → Except RuleError (SortedSet Text)
  | [] => .ok acc
  | ref :: refs =>
    match i.members ref with
    | .ok s => meet i (acc.filter s.contains) refs
    | .error e => .error e

/-- The segments that an element stands for if it names a set. -/
def membersOf (i : Inventory) : Element → Except RuleError (SortedSet Text)
  | .set ref => i.members ref
  | .compound [] => .ok .empty
  | .compound (ref :: refs) =>
    match i.members ref with
    | .ok s => i.meet s refs
    | .error e => .error e
  | _ => .ok .empty

/-- The trie of the segments that an element stands for. -/
def trie (i : Inventory) (e : Element) : Except RuleError Trie := (i.membersOf e).map Trie.ofSet

/-- The members of a category being declared: `acc` and those of the sets it includes. -/
def resolve (i : Inventory) (name : Text) (acc : SortedSet Text) :
    List SetRef → Except RuleError (SortedSet Text)
  | [] => .ok acc
  | ref :: refs =>
    if ref = .category name ∧ (i.category? name).isNone then .error (.cyclic name)
    else
      match i.members ref with
      | .ok s => resolve i name (acc.union s) refs
      | .error e => .error e

/-- Declares a category. -/
def declareCategory (i : Inventory) (c : Category) : Except RuleError Inventory :=
  (i.resolve c.name c.members c.includes).map fun members =>
    { i with categories := (c.name, members) :: i.categories }

/-- Declares a feature-set. -/
def declareFeatureSet (i : Inventory) (f : FeatureSet) : Inventory :=
  { i with featureSets := f :: i.featureSets }

end Inventory

end SoundChange
