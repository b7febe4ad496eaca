import SoundChange.SortedSet

/-!
# Feature-sets

A feature-set lists the segments that a binary feature sets apart. A pair gives a base form and its
marked form; a bare member carries the feature and has no base form. The pairs are a one-to-one
matching, which `addPair` guards: `addition` looks a pair up by its base form, `removal` by its
marked form.
-/

namespace SoundChange

/-- Why two segments cannot be made a pair. -/
inductive FeatureConflict where
  /-- The base form has another marked form. -/
  | baseMapped (base existing : Text)
  /-- The marked form has another base form. -/
  | markedMapped (marked existing : Text)
  deriving DecidableEq, Repr

/-- The sentence that reports a conflict. -/
def FeatureConflict.message : FeatureConflict → String
  | baseMapped base existing =>
    "'" ++ .ofList base ++ "' is already transformed to '" ++ .ofList existing ++ "'."
  | markedMapped marked existing =>
    "'" ++ .ofList marked ++ "' is already the transform of '" ++ .ofList existing ++ "'."

/-- A binary feature: the segments it concerns, and the pairs of base and marked form. -/
structure FeatureSet where
  name : Text
  members : SortedSet Text
  pairs : SortedSet (Text × Text)
  deriving DecidableEq

namespace FeatureSet

/-- The feature-set of some name that concerns no segment yet. -/
def new (name : Text) : FeatureSet := ⟨name, .empty, .empty⟩

/-- The marked form of a base form. -/
def addition (f : FeatureSet) (base : Text) : Option Text :=
  (f.pairs.toList.find? fun p => p.1 = base).map (·.2)

/-- The base form of a marked form. -/
def removal (f : FeatureSet) (marked : Text) : Option Text :=
  (f.pairs.toList.find? fun p => p.2 = marked).map (·.1)

/-- Adds a segment that carries the feature. -/
def addMember (f : FeatureSet) (segment : Text) : FeatureSet :=
  { f with members := f.members.insert segment }

/-- The feature-set with one more pair and its two members. -/
def paired (f : FeatureSet) (base marked : Text) : FeatureSet :=
  { f with
    members := (f.members.insert base).insert marked
    pairs := f.pairs.insert (base, marked) }

/-- Adds a base form and its marked form, unless either is in another pair in that role. -/
def addPair (f : FeatureSet) (base marked : Text) : Except FeatureConflict FeatureSet :=
  match (f.addition base).filter (· ≠ marked), (f.removal marked).filter (· ≠ base) with
  | some existing, _ => .error (.baseMapped base existing)
  | none, some existing => .error (.markedMapped marked existing)
  | none, none => .ok (f.paired base marked)

/-- The segments that lack the feature: the base forms. -/
def minusMembers (f : FeatureSet) : SortedSet Text := .ofList (f.pairs.toList.map (·.1))

/-- The segments that carry the feature: the members that are no base forms. -/
def plusMembers (f : FeatureSet) : SortedSet Text :=
  f.members.filter fun m => (f.addition m).isNone

/-- The segments with the feature, or without it. -/
def membersFor (f : FeatureSet) (present : Bool) : SortedSet Text :=
  if present then f.plusMembers else f.minusMembers

/-- The segment that differs from a given one by having the feature, or by lacking it. -/
def transform (f : FeatureSet) (present : Bool) (segment : Text) : Option Text :=
  if present then f.addition segment else f.removal segment

/-- The entry of a member in a declaration: a base form brings its marked form along. -/
def displayMember (f : FeatureSet) (member : Text) : Text :=
  match f.addition member with
  | some marked => member ++ [' ', '=', '>', ' '] ++ marked
  | none => member

/-- The declaration of the feature-set; marked forms stand only beside their base forms. -/
def display (f : FeatureSet) : Text :=
  let entries := (f.members.toList.filter fun m => (f.removal m).isNone).map f.displayMember
  let listed := (entries.intersperse [',', ' ']).flatten
  '[' :: f.name ++ [']', ' ', '\x7b'] ++ (if entries.isEmpty then [] else ' ' :: listed) ++
    [' ', '\x7d']

end FeatureSet

end SoundChange
