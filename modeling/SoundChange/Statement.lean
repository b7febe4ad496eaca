import SoundChange.FeatureSet
import SoundChange.Rule
import SoundChange.Token

/-!
# Statements

What a rule file consists of: declarations of categories and of feature-sets, and rules.
-/

namespace SoundChange

/-- A named class of segments: its own members, and the sets whose members it takes over. -/
structure Category where
  name : Text
  members : SortedSet Text
  includes : List SetRef
  deriving DecidableEq

namespace Category

/-- The category of some name without members. -/
def new (name : Text) : Category := ⟨name, .empty, []⟩

/-- Adds a member. -/
def addMember (c : Category) (segment : Text) : Category :=
  { c with members := c.members.insert segment }

/-- Adds a set whose members are taken over. -/
def addInclude (c : Category) (ref : SetRef) : Category :=
  { c with includes := c.includes ++ [ref] }

/-- The declaration of the category. -/
def display (c : Category) : Text :=
  c.name ++ [' ', '\x7b'] ++ c.members.toList.flatMap (' ' :: ·) ++
    c.includes.flatMap (fun ref => ' ' :: '[' :: ref.display ++ [']']) ++ [' ', '\x7d']

end Category

/-- One statement of a rule file. -/
inductive Statement where
  | category (declaration : Category)
  | featureSet (declaration : FeatureSet)
  | rule (rule : Rule) (position : Position)

/-- The statement as a rule file has it. -/
def Statement.display : Statement → Text
  | category c => c.display
  | featureSet f => f.display
  | rule r _ => r.display

end SoundChange
