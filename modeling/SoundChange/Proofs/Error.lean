import SoundChange.Error

/-!
# Errors and their places

An error that is found while a statement is read has a place, and one that is found when a statement
is carried out has none. `Raises` says what all errors are that something can fail with;
`RuleError.PlacedIn` and `RuleError.Unplaced` are said of errors.
-/

namespace SoundChange

section Except

variable {ε α β : Type} {x : Except ε α} {f : α → β}

theorem exists_ok (h : x.isOk = true) : ∃ v, x = .ok v := by
  cases x with
  | error e => cases h
  | ok v => exact ⟨v, rfl⟩

theorem map_eq_ok {y : β} : x.map f = .ok y ↔ ∃ a, x = .ok a ∧ f a = y := by
  cases x <;> simp [Except.map]

theorem map_eq_error {e : ε} : x.map f = .error e ↔ x = .error e := by
  cases x <;> simp [Except.map]

end Except

variable {α β : Type} {P : Position → Prop} {Q : RuleError → Prop} {e : RuleError} {p : Position}

namespace RuleError

/-- The error has a place, of which `P` holds. -/
def PlacedIn (P : Position → Prop) (e : RuleError) : Prop := ∃ p, e.position? = some p ∧ P p

/-- The error has no place of its own. -/
def Unplaced (e : RuleError) : Prop := e.position? = none

theorem placedIn_ofToken {production : Production} {expected : List TokenKind} {t : Token}
    (ht : P t.position) : (ofToken production expected t).PlacedIn P := by
  unfold ofToken
  split
  · exact ⟨t.position, rfl, ht⟩
  · exact ⟨t.position, rfl, ht⟩

theorem placedIn_defective {production : Production} {defect : Defect} (hp : P p) :
    (defective production defect p).PlacedIn P := ⟨p, rfl, hp⟩

end RuleError

/-- What goes wrong, if anything, is an error of which `Q` holds. -/
def Raises (Q : RuleError → Prop) (x : Except RuleError α) : Prop := ∀ e, x = .error e → Q e

theorem raises_ok {v : α} : Raises Q (.ok v) := nofun

theorem raises_error (h : Q e) : Raises Q (.error e : Except RuleError α) := by
  rintro _ ⟨⟩
  exact h

theorem Raises.map {x : Except RuleError α} (h : Raises Q x) (f : α → β) :
    Raises Q (x.map f) := by
  cases x with
  | error e => exact raises_error (h e rfl)
  | ok v => exact raises_ok

end SoundChange
