/-!
# Visits

A search that visits each place at most once ends, because the work that a place brings is counted
among what is still to come only until the place has been visited. `toCome_visit` is the step of
that argument.
-/

namespace SoundChange

variable {α : Type}

/-- The work that a place still has to bring. -/
def unvisited (work : α → Nat) (visited : α → Bool) (x : α) : Nat :=
  if visited x then 0 else work x

/-- The work that several places still have to bring. -/
def toCome (work : α → Nat) (visited : α → Bool) : List α → Nat
  | [] => 0
  | x :: places => unvisited work visited x + toCome work visited places

theorem unvisited_le (work : α → Nat) {visited later : α → Bool}
    (h : ∀ x, visited x = true → later x = true) (x : α) :
    unvisited work later x ≤ unvisited work visited x := by
  cases hx : visited x
  · cases hl : later x <;> simp [unvisited, hx, hl]
  · simp [unvisited, h x hx]

theorem toCome_le (work : α → Nat) {visited later : α → Bool}
    (h : ∀ x, visited x = true → later x = true) :
    ∀ places : List α, toCome work later places ≤ toCome work visited places
  | [] => Nat.le_refl _
  | x :: places => Nat.add_le_add (unvisited_le work h x) (toCome_le work h places)

/-- A visit takes the work of its place out of what is still to come. -/
theorem toCome_visit (work : α → Nat) {visited later : α → Bool}
    (h : ∀ x, visited x = true → later x = true) {y : α} (hy : visited y = false)
    (hl : later y = true) :
    ∀ {places : List α}, y ∈ places →
      work y + toCome work later places ≤ toCome work visited places
  | x :: places, hmem => by
    rw [toCome, toCome]
    have hle := toCome_le work h places
    have hxle := unvisited_le work h x
    rcases List.mem_cons.mp hmem with rfl | hmem
    · have h0 : unvisited work later y = 0 := by simp [unvisited, hl]
      have h1 : unvisited work visited y = work y := by simp [unvisited, hy]
      omega
    · have ih := toCome_visit work h hy hl hmem
      omega

end SoundChange
