/-!
# Orders by rank

Sets and tables of this library are kept in a fixed order: texts by the code points of their
characters, states by number, symbols with the silent and the edge symbols first. `Ranked` names
that order once for each type, as a three-way comparison that is a total order.

`Ranked.before` is the strict order as a test; `Ranked.irrefl`, `Ranked.trans` and `Ranked.total`
are its laws. `Ranked.asymm` and `Ranked.ne_of_before` are the two facts used where lists are
searched.
-/

namespace SoundChange

/-- A text is its characters in order, so positions, columns and lengths count characters. -/
abbrev Text := List Char

/-- A type with a fixed total order. -/
class Ranked (α : Type) where
  /-- How two elements compare. -/
  ordering : α → α → Ordering
  transCmp : Std.TransCmp ordering
  lawfulEqCmp : Std.LawfulEqCmp ordering

attribute [instance] Ranked.transCmp Ranked.lawfulEqCmp

namespace Ranked

variable {α : Type} [Ranked α]

theorem ordering_eq {a b : α} : ordering a b = .eq ↔ a = b := Std.LawfulEqCmp.compare_eq_iff_eq

/-- The first element comes strictly before the second. -/
def before (a b : α) : Bool := ordering a b = .lt

theorem before_iff {a b : α} : before a b = true ↔ ordering a b = .lt := decide_eq_true_iff

theorem irrefl (a : α) : before a a = false := by
  rw [before, ordering_eq.mpr (rfl : a = a)]
  rfl

theorem trans {a b c : α} (h₁ : before a b = true) (h₂ : before b c = true) :
    before a c = true :=
  before_iff.mpr (Std.TransCmp.lt_trans (before_iff.mp h₁) (before_iff.mp h₂))

theorem total {a b : α} (h₁ : before a b = false) (h₂ : before b a = false) : a = b := by
  rw [before, decide_eq_false_iff_not] at h₁ h₂
  cases h : ordering a b with
  | lt => exact absurd h h₁
  | eq => exact ordering_eq.mp h
  | gt => exact absurd (Std.OrientedCmp.gt_iff_lt.mp h) h₂

theorem ne_of_before {a b : α} (h : before a b = true) : a ≠ b := by
  rintro rfl
  rw [irrefl] at h
  exact Bool.noConfusion h

theorem asymm {a b : α} (h : before a b = true) : before b a = false := by
  cases h' : before b a
  · rfl
  · exact absurd rfl (ne_of_before (trans h h'))

end Ranked

instance instRankedNat : Ranked Nat := ⟨compare, inferInstance, inferInstance⟩

/-- Characters stand in the order of their code points. -/
instance instRankedChar : Ranked Char :=
  ⟨compareOn Char.toNat, inferInstance, ⟨fun h => Char.toNat_inj.mp (Ranked.ordering_eq.mp h)⟩⟩

/-- Lists stand in dictionary order: a proper beginning comes first. -/
instance instRankedList {α : Type} [Ranked α] : Ranked (List α) :=
  ⟨List.compareLex Ranked.ordering, inferInstance, inferInstance⟩

/-- Pairs stand in the order of their first parts, then of their second. -/
instance instRankedProd {α β : Type} [Ranked α] [Ranked β] : Ranked (α × β) where
  ordering a b := (Ranked.ordering a.1 b.1).then (Ranked.ordering a.2 b.2)
  transCmp :=
    let _ : Ord α := ⟨Ranked.ordering⟩
    let _ : Ord β := ⟨Ranked.ordering⟩
    have : Std.TransOrd α := Ranked.transCmp
    have : Std.TransOrd β := Ranked.transCmp
    inferInstanceAs (Std.TransCmp (compareLex (compareOn Prod.fst) (compareOn Prod.snd)))
  lawfulEqCmp := by
    refine @Std.LawfulEqCmp.mk _ _ ⟨?_⟩ ?_
    · simp [Std.ReflCmp.compare_self]
    · intro a b h
      rw [Ordering.then_eq_eq, Ranked.ordering_eq, Ranked.ordering_eq] at h
      exact Prod.ext h.1 h.2

end SoundChange
