import SoundChange.Proofs.Application.Output
import SoundChange.Proofs.Rule.Derivation

/-!
# What steps add to the output

`Output.Emits a n n' steps ps`: taking the steps adds the pieces `ps` to an output, whatever it is,
as long as text that it still holds belongs to a unit below `n`; then what is held afterwards
belongs to one below `n'`. Held text counts as deleted here, which it will be unless its unit goes
on.

In the middle of a unit this cannot be said yet: there the output holds all that the unit has read
(`Output.Holds`), and what it has held before has been let go. `Output.Underway` says so of a unit,
and outside the target that every symbol has been kept. A unit goes on from arc to arc
(`Underway.next`) until an arc ends it (`Underway.close`) or a default transform does
(`Underway.pass`).
-/

namespace SoundChange

namespace Output

open Assembly (TargetUnit)
open Layout (Ends Closes IsUnit Begins)

variable {a : Automaton} {i : Inventory} {o o' o'' : Output} {s : StateId} {c : Symbol}
  {n n' k k' : Nat} {steps more : List Step} {ps qs : List Piece}

/-! ## Outputs between units -/

/-- If text is held, it is for a unit below `n`. -/
def Ready (a : Automaton) (n : Nat) (o : Output) : Prop :=
  match o.holder with
  | none => o.held = []
  | some id => o.held ≠ [] ∧ ∃ t, a.transform? id = some t ∧ t.unit < n

theorem ready_empty : Ready a n {} := rfl

theorem Ready.mono (h : o.Ready a n) (hn : n ≤ n') : o.Ready a n' := by
  unfold Ready at *
  split at h
  · exact h
  · obtain ⟨hheld, t, ht, hunit⟩ := h
    exact ⟨hheld, t, ht, Nat.lt_of_lt_of_le hunit hn⟩

theorem ready_of_holder (h : o.holder = none) (hheld : o.held = []) : o.Ready a n := by
  rw [Ready, h]
  exact hheld

theorem Ready.holder_release (h : o.Ready a n) : (o.release a).holder = none := by
  unfold Ready at h
  unfold release
  split at h
  · rename_i hholder
    rw [if_pos h]
    exact hholder
  · rw [if_neg h.1]

/-- The output after one more piece: where a unit of the target has read it, the target ends behind
it for now. -/
def add (o : Output) : Piece → Output
  | .kept c => { o.copy c with position := o.position + 1 }
  | .changed c => markTarget
    { o with
      written := o.written ++ c.replacement
      changes := o.changes ++ [c]
      position := o.position + c.replaced.length }

theorem written_foldl_add : (ps.foldl add o).written = o.written ++ ps.flatMap Piece.text := by
  induction ps generalizing o with
  | nil => exact (List.append_nil _).symm
  | cons p ps ih =>
    rw [List.foldl_cons, ih, List.flatMap_cons, ← List.append_assoc]
    cases p <;> rfl

theorem changes_foldl_add :
    (ps.foldl add o).changes = o.changes ++ ps.filterMap Piece.change? := by
  induction ps generalizing o with
  | nil => exact (List.append_nil _).symm
  | cons p ps ih =>
    rw [List.foldl_cons, ih]
    cases p with
    | kept => rfl
    | changed c => exact List.append_assoc ..

/-- The second output is the first one with some pieces added, once what they hold is let go. -/
def Adds (a : Automaton) (o : Output) (ps : List Piece) (o' : Output) : Prop :=
  o'.release a = ps.foldl add (o.release a)

theorem adds_nil : o.Adds a [] o := rfl

namespace Adds

theorem append (h : o.Adds a ps o') (h' : o'.Adds a qs o'') : o.Adds a (ps ++ qs) o'' := by
  rw [Adds, List.foldl_append, ← h]
  exact h'

theorem written_eq (h : o.Adds a ps o') : o'.written = o.written ++ ps.flatMap Piece.text := by
  rw [← written_release (a := a), h, written_foldl_add, written_release]

theorem changes_eq (h : o.Adds a ps o') :
    (o'.release a).changes = (o.release a).changes ++ ps.filterMap Piece.change? := by
  rw [h, changes_foldl_add]

end Adds

/-- Taking the steps adds the pieces. -/
def Emits (a : Automaton) (n n' : Nat) (steps : List Step) (ps : List Piece) : Prop :=
  ∀ o, o.Ready a n → (steps.foldl (step a) o).Ready a n' ∧ o.Adds a ps (steps.foldl (step a) o)

theorem emits_nil (h : n ≤ n') : Emits a n n' [] [] := fun _ ho => ⟨ho.mono h, adds_nil⟩

theorem Emits.append (h : Emits a n k steps ps) (h' : Emits a k n' more qs) :
    Emits a n n' (steps ++ more) (ps ++ qs) := by
  intro o ho
  obtain ⟨hready, hadds⟩ := h o ho
  obtain ⟨hready', hadds'⟩ := h' _ hready
  rw [List.foldl_append]
  exact ⟨hready', hadds.append hadds'⟩

theorem Emits.mono (h : Emits a k k' steps ps) (hn : n ≤ k) (hn' : k' ≤ n') :
    Emits a n n' steps ps := fun o ho =>
  ⟨(h o (ho.mono hn)).1.mono hn', (h o (ho.mono hn)).2⟩

/-- A silent step without a default transform adds nothing. -/
theorem emits_silent (h : a.default? s = none) : Emits a n n [⟨s, .lambda⟩] [] := by
  intro o ho
  have hstep : step a o ⟨s, .lambda⟩ = o := by
    rw [step_silent, passSilently, h]
    rfl
  rw [List.foldl_cons, List.foldl_nil, hstep]
  exact ⟨ho, adds_nil⟩

/-- A symbol without a transform is kept. -/
theorem emits_kept (hc : c ≠ .lambda) (h : a.attached? s c = none) :
    Emits a n n [⟨s, c⟩] [.kept c] := by
  intro o ho
  have hstep : step a o ⟨s, c⟩ =
      { (o.release a).copy c with position := ((o.release a).copy c).position + 1 } := by
    rw [step_read hc, readSymbol, h]
  have hheld : (step a o ⟨s, c⟩).held = [] := by
    rw [hstep]
    exact held_release
  rw [List.foldl_cons, List.foldl_nil]
  refine ⟨ready_of_holder ?_ hheld, ?_⟩
  · rw [hstep]
    exact ho.holder_release
  · rw [Adds, release_of_held hheld, hstep]
    rfl

/-! ## Outputs within a unit -/

/-- The second output is the first one when that has let go what it held, and has read and holds
`m`, which belongs to the target. -/
structure Retains (a : Automaton) (o : Output) (m : Text) (o' : Output) : Prop where
  written_eq : o'.written = o.written
  changes_eq : o'.changes = (o.release a).changes
  held_eq : o'.held = m
  position_eq : o'.position = o.position + m.length
  targetEnd_eq : o'.targetEnd = if m = [] then o.targetEnd else some (o'.position, o'.written)

theorem Retains.position_concat {read : Text} (h : o.Retains a read o') (c : Char) :
    o'.position + 1 = o.position + (read ++ [c]).length := by
  rw [h.position_eq, List.length_append, Nat.add_assoc, List.length_singleton]

/-- Taking the steps holds back the text `m` for a unit, and lets go what was held before. -/
def Holds (a : Automaton) (u : TargetUnit) (steps : List Step) (m : Text) : Prop :=
  ∀ o, o.Ready a u.number →
    if m = [] then steps.foldl (step a) o = o
    else o.Retains a m (steps.foldl (step a) o) ∧
      (steps.foldl (step a) o).holder = some u.null

theorem holds_nil (u : TargetUnit) : Holds a u [] [] := fun o _ => by
  rw [if_pos rfl]
  rfl

section Unit

variable {u : TargetUnit} {e : Element} {m : Emission} {read : Text} {c : Char} {id : TransformId}
  {t : Transform}

/-- A transform of the unit lets go what other units hold. -/
theorem Holds.switchUnit (h : Holds a u steps read) (hu : IsUnit a e m n u)
    (ho : o.Ready a u.number) :
    o.Retains a read ((steps.foldl (step a) o).switchUnit a u.number) := by
  have h := h o ho
  split at h
  · rename_i hread
    rw [h, hread, Output.switchUnit]
    unfold Ready at ho
    split at ho
    · rename_i hholder
      rw [hholder]
      exact ⟨rfl, by rw [release_of_held ho]; rfl, ho, rfl, (if_pos rfl).symm⟩
    · rename_i id hholder
      obtain ⟨-, t, ht, hunit⟩ := ho
      have hother : (o.holder.bind a.transform?).any (·.unit ≠ u.number) = true := by
        rw [hholder, Option.bind_some, ht, Option.any_some]
        exact decide_eq_true (Nat.ne_of_lt hunit)
      rw [if_pos hother]
      exact ⟨written_release, rfl, held_release, position_release,
        targetEnd_release.trans (if_pos rfl).symm⟩
  · have hown : ((steps.foldl (step a) o).holder.bind a.transform?).any (·.unit ≠ u.number) =
        false := by
      rw [h.2, Option.bind_some, hu.null_eq, Option.any_some]
      exact decide_eq_false fun h => h rfl
    rw [Output.switchUnit, hown]
    exact h.1

/-- A null transform of the unit holds one more character. -/
theorem Holds.next (h : Holds a u steps read) (hu : IsUnit a e m n u)
    (hattached : a.attached? s (.char c) = some u.null) :
    Holds a u (steps ++ [⟨s, .char c⟩]) (read ++ [c]) := by
  intro o ho
  have hx := h.switchUnit hu ho
  have hstep : step a (steps.foldl (step a) o) ⟨s, .char c⟩ =
      markTarget { hold u.null (.char c) ((steps.foldl (step a) o).switchUnit a u.number) with
        position := ((steps.foldl (step a) o).switchUnit a u.number).position + 1 } := by
    rw [step_char, readSymbol, hattached]
    dsimp only
    rw [hu.null_eq]
    rfl
  have hne : read ++ [c] ≠ [] := List.append_ne_nil_of_right_ne_nil _ (List.cons_ne_nil _ _)
  rw [if_neg hne, List.foldl_append, List.foldl_cons, List.foldl_nil, hstep]
  exact ⟨⟨hx.written_eq, hx.changes_eq, congrArg (· ++ [c]) hx.held_eq,
    hx.position_concat c, (if_neg hne).symm⟩, rfl⟩

/-- What is written for retained text and a last piece is added. -/
theorem Retains.write (h : o.Retains a read o') (hholder : (o.release a).holder = none)
    {last : Text} {position : Nat} (hposition : position = o.position + (read ++ last).length) :
    markTarget { o'.write t last with position } = (o.release a).add
      (.changed ⟨read ++ last, t.replacement, t.source, t.target⟩) := by
  simp only [markTarget, add, Output.write, Transform.applied, h.written_eq, h.changes_eq,
    h.held_eq, written_release, position_release, held_release, hholder, hposition]

/-- Text that is only held by its unit is deleted. -/
theorem Holds.emits (h : Holds a u steps read) (hu : IsUnit a e m n u) (hread : read ≠ []) :
    Emits a n (n + 1) steps [.changed ⟨read, [], u.source, u.target⟩] := by
  intro o ho
  rw [← hu.number_eq] at ho ⊢
  have h := h o ho
  rw [if_neg hread] at h
  obtain ⟨hretains, hholder⟩ := h
  have hheld : (steps.foldl (step a) o).held ≠ [] := hretains.held_eq ▸ hread
  refine ⟨?_, ?_⟩
  · rw [Ready, hholder]
    exact ⟨hheld, _, hu.null_eq, Nat.lt_succ_self _⟩
  · have hknown : (steps.foldl (step a) o).holder.bind a.transform? =
        some (.null u.source u.target u.number) := by
      rw [hholder, Option.bind_some, hu.null_eq]
    rw [Adds, release_of_holder hheld hknown, List.foldl_cons, List.foldl_nil]
    simp only [markTarget, add, Transform.applied, Transform.null, hretains.written_eq,
      hretains.changes_eq, hretains.held_eq, hretains.position_eq, hretains.targetEnd_eq,
      if_neg hread, written_release, position_release, held_release, ho.holder_release,
      List.append_nil]

/-- An ordinary transform of the unit writes for all that has been read. -/
theorem Holds.fire (h : Holds a u steps read) (hu : IsUnit a e m n u)
    (hattached : a.attached? s (.char c) = some id) (ht : a.transform? id = some t)
    (hunit : t.unit = u.number) (hnull : t.isNull = false) :
    Emits a n (n + 1) (steps ++ [⟨s, .char c⟩])
      [.changed ⟨read ++ [c], t.replacement, t.source, t.target⟩] := by
  intro o ho
  rw [← hu.number_eq] at ho ⊢
  have hx := h.switchUnit hu ho
  have hstep : step a (steps.foldl (step a) o) ⟨s, .char c⟩ =
      markTarget { Output.write t [c] ((steps.foldl (step a) o).switchUnit a u.number) with
        position := ((steps.foldl (step a) o).switchUnit a u.number).position + 1 } := by
    rw [step_char, readSymbol, hattached]
    dsimp only
    rw [ht]
    dsimp only
    rw [hnull, hunit]
    rfl
  rw [List.foldl_append, List.foldl_cons, List.foldl_nil, hstep]
  exact ⟨rfl, (release_of_held rfl).trans (hx.write ho.holder_release (hx.position_concat c))⟩

/-- A default transform of the unit writes for all that has been read. -/
theorem Holds.pass (h : Holds a u steps read) (hu : IsUnit a e m n u)
    (hdefault : a.default? s = some id) (ht : a.transform? id = some t)
    (hunit : t.unit = u.number) :
    Emits a n (n + 1) (steps ++ [⟨s, .lambda⟩])
      [.changed ⟨read, t.replacement, t.source, t.target⟩] := by
  intro o ho
  rw [← hu.number_eq] at ho ⊢
  have hx := h.switchUnit hu ho
  have hposition : ((steps.foldl (step a) o).switchUnit a u.number).position =
      o.position + (read ++ []).length := by
    rw [hx.position_eq, List.append_nil]
  have hstep : step a (steps.foldl (step a) o) ⟨s, .lambda⟩ =
      markTarget (Output.write t [] ((steps.foldl (step a) o).switchUnit a u.number)) := by
    rw [step_silent, passSilently, hdefault, Option.bind_some, ht, ← hunit]
  have hadd := hx.write (t := t) ho.holder_release hposition
  rw [List.append_nil] at hadd
  rw [List.foldl_append, List.foldl_cons, List.foldl_nil, hstep]
  exact ⟨rfl, (release_of_held rfl).trans hadd⟩

end Unit

/-! ## In the target and outside -/

/-- Taking the steps reads the text `m` of something that is not complete: for a unit it is held,
and outside the target it is kept. -/
def Underway (a : Automaton) (u : Option TargetUnit) (n : Nat) (steps : List Step) (m : Text) :
    Prop :=
  match u with
  | none => Emits a n n steps ((Symbol.ofText m).map .kept)
  | some u => Holds a u steps m

section Underway

variable {u : Option TargetUnit} {e : Element} {m : Option Emission} {read : Text} {c : Char}
  {tr : Option TransformId}

theorem underway_nil : Underway a u n [] [] := by
  cases u with
  | none => exact emits_nil (Nat.le_refl n)
  | some u => exact holds_nil u

theorem Emits.keep (h : Emits a n n steps ((Symbol.ofText read).map .kept))
    (hattached : a.attached? s (.char c) = none) :
    Emits a n n (steps ++ [⟨s, .char c⟩]) ((Symbol.ofText (read ++ [c])).map .kept) := by
  have hkept := h.append (emits_kept (fun h => Symbol.noConfusion h) hattached)
  simpa [Symbol.ofText] using hkept

theorem Underway.next (h : Underway a u n steps read) (hu : Begins a e m n n' u)
    (hattached : a.attached? s (.char c) = u.map TargetUnit.null) :
    Underway a u n (steps ++ [⟨s, .char c⟩]) (read ++ [c]) := by
  cases m with
  | none =>
    obtain ⟨rfl, rfl⟩ := hu
    exact Emits.keep h hattached
  | some m =>
    obtain ⟨v, rfl, hv, rfl⟩ := hu
    exact Holds.next h hv hattached

/-- What is written where a unit ends is what its result makes of the text read. -/
theorem rendered_of_closes (hu : Begins a e m n n' u) (hm : ∀ x, m = some x → x.Plain)
    (hcloses : Closes a i u read tr) : Rendered i e read m (rendered i e m read) := by
  cases m with
  | none => exact .kept
  | some m =>
    obtain ⟨v, rfl, hv, -⟩ := hu
    obtain ⟨id, -, text, htext, -⟩ := hcloses
    rw [hv.emission_eq] at htext
    rw [rendered_of_replacement htext]
    exact .changed (Emission.writes_of_replacement (hm m rfl) htext)

/-- An arc that ends a unit completes it. -/
theorem Underway.close (h : Underway a u n steps read) (hu : Begins a e m n n' u)
    (hcloses : Closes a i u (read ++ [c]) tr) (hattached : a.attached? s (.char c) = tr) :
    Emits a n n' (steps ++ [⟨s, .char c⟩]) (rendered i e m (read ++ [c])) := by
  cases m with
  | none =>
    obtain ⟨rfl, rfl⟩ := hu
    obtain rfl : tr = none := hcloses
    exact Emits.keep h hattached
  | some m =>
    obtain ⟨v, rfl, hv, rfl⟩ := hu
    obtain ⟨id, rfl, text, htext, hends⟩ := hcloses
    rw [hv.emission_eq] at htext
    rw [rendered_of_replacement htext, ← hv.source_eq, ← hv.target_eq]
    split at hends
    · rename_i hnil
      rw [hnil]
      rw [hends] at hattached
      exact (Holds.next h hv hattached).emits hv
        (List.append_ne_nil_of_right_ne_nil _ (List.cons_ne_nil _ _))
    · exact Holds.fire h hv hattached hends rfl rfl

/-- A default transform completes a unit. -/
theorem Underway.pass (h : Underway a u n steps read) (hu : Begins a e m n n' u)
    (hcloses : Closes a i u read tr) (hdefault : a.default? s = tr) :
    Emits a n n' (steps ++ [⟨s, .lambda⟩]) (rendered i e m read) := by
  cases m with
  | none =>
    obtain ⟨rfl, rfl⟩ := hu
    obtain rfl : tr = none := hcloses
    have hpass := Emits.append h (emits_silent hdefault)
    rwa [List.append_nil] at hpass
  | some m =>
    obtain ⟨v, rfl, hv, rfl⟩ := hu
    obtain ⟨id, rfl, text, htext, hends⟩ := hcloses
    rw [hv.emission_eq] at htext
    rw [rendered_of_replacement htext, ← hv.source_eq, ← hv.target_eq]
    split at hends
    · rename_i hnil
      rw [hnil]
      rw [hends] at hdefault
      exact Holds.pass h hv hdefault hv.null_eq rfl
    · exact Holds.pass h hv hdefault hends rfl

end Underway

end Output

end SoundChange
