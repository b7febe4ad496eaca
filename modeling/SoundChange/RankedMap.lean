import SoundChange.Order
import Std.Data.TreeMap
import Std.Data.TreeSet

/-!
# Maps and sets by rank

Search trees in the order of `Ranked`, for what is looked up often. `RankedMap.group` sorts pairs by
their first parts; `RankedMap.getD_group` says what becomes of each pair.
-/

namespace SoundChange

/-- A map for looking up by rank. -/
abbrev RankedMap (α β : Type) [Ranked α] := Std.TreeMap α β Ranked.ordering

/-- A set for looking up by rank. -/
abbrev RankedSet (α : Type) [Ranked α] := Std.TreeSet α Ranked.ordering

namespace RankedMap

variable {α β : Type} [Ranked α]

/-- The second parts of some pairs by their first parts, in the order of the pairs. -/
def group (pairs : List (α × β)) : RankedMap α (List β) :=
  pairs.foldr (fun p m => m.alter p.1 fun seconds => some (p.2 :: seconds.getD [])) ∅

theorem getD_group [DecidableEq α] (pairs : List (α × β)) (a : α) :
    (group pairs)[a]?.getD [] = pairs.filterMap fun p => if p.1 = a then some p.2 else none := by
  induction pairs with
  | nil => simp [group]
  | cons p pairs ih =>
    have hcons : group (p :: pairs) =
      (group pairs).alter p.1 fun seconds => some (p.2 :: seconds.getD []) := rfl
    rw [hcons, Std.TreeMap.getElem?_alter, List.filterMap_cons]
    simp only [Std.LawfulEqCmp.compare_eq_iff_eq]
    by_cases h : p.1 = a
    · subst h
      simp [ih]
    · simp [h, ih]

end RankedMap

end SoundChange
