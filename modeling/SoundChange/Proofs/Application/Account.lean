import SoundChange.Proofs.Application.Match
import SoundChange.Proofs.Application.Output
import SoundChange.Proofs.Application.Search
import SoundChange.Proofs.Automaton.Registered

/-!
# Changes account for the output

`Accounts changes before after`: the first text becomes the second one when what each change
replaces gives way to its replacement, in order, and all between the changes is kept. The changes
that an automaton records along a path account for what it writes
(`Automaton.Run.balanced`), and so do those of a match and of a whole word (`Table.accounts_apply`).

In the middle of a path some text may be held back: it has been read, but nothing has been written
or recorded for it. `Output.Settled` says that the rest is accounted for, and `Output.Balanced` adds
that where the target ends, so far, the changes account for what was written up to there.
-/

namespace SoundChange

/-- The changes turn the first text into the second one: between them all is kept. -/
inductive Accounts : List Change → Text → Text → Prop where
  | kept (text : Text) : Accounts [] text text
  | change (gap : Text) (c : Change) {changes : List Change} {before after : Text} :
      Accounts changes before after →
      Accounts (c :: changes) (gap ++ c.replaced ++ before) (gap ++ c.replacement ++ after)

namespace Accounts

variable {cs ds : List Change} {x x' y y' : Text}

theorem prepend (gap : Text) (h : Accounts cs x y) : Accounts cs (gap ++ x) (gap ++ y) := by
  cases h with
  | kept text => exact .kept _
  | change gap' c h =>
    have hall := Accounts.change (gap ++ gap') c h
    simpa only [List.append_assoc] using hall

/-- One text after another: the changes of the second come after those of the first. -/
theorem append (h : Accounts cs x y) (h' : Accounts ds x' y') :
    Accounts (cs ++ ds) (x ++ x') (y ++ y') := by
  induction h with
  | kept text => exact h'.prepend text
  | change gap c _ ih =>
    have hall := Accounts.change gap c ih
    simpa only [List.append_assoc, List.cons_append] using hall

theorem single (c : Change) : Accounts [c] c.replaced c.replacement := by
  simpa using Accounts.change [] c (.kept [])

theorem eq_of_nil (h : Accounts [] x y) : y = x := by
  cases h
  rfl

/-- Changes of the empty text replace nothing. -/
theorem replaced_eq_nil (h : Accounts cs x y) (hx : x = []) : ∀ c ∈ cs, c.replaced = [] := by
  induction h with
  | kept => exact nofun
  | change gap c _ ih =>
    obtain ⟨hgap, hbefore⟩ := List.append_eq_nil_iff.mp hx
    exact List.forall_mem_cons.mpr ⟨(List.append_eq_nil_iff.mp hgap).2, ih hbefore⟩

end Accounts

namespace Symbol

theorem text_append (v w : List Symbol) : text (v ++ w) = text v ++ text w :=
  List.filterMap_append

theorem text_coat (word : Text) : text (coat word) = word := by
  have hall : coat word = [wordStart] ++ (ofText word ++ [wordEnd]) := rfl
  rw [hall, text_append, text_append, text_ofText]
  exact List.append_nil word

end Symbol

namespace Output

variable {a : Automaton} {o : Output} {read last : Text} {w v : List Symbol} {s u : StateId}
  {c : Symbol} {n : TransformId} {t : Transform} {steps : List Step}

/-! ## Held text -/

/-- All that has been read is accounted for, apart from what is held, and that is held by a
transform. -/
structure Settled (a : Automaton) (read : Text) (o : Output) : Prop where
  holder : o.held ≠ [] → ∃ t, o.holder.bind a.transform? = some t
  accounts : ∃ done, read = done ++ o.held ∧ Accounts o.changes done o.written

namespace Settled

/-- What is held is deleted, and that is recorded. -/
theorem release (h : o.Settled a read) : Accounts (o.release a).changes read o.written := by
  obtain ⟨done, rfl, haccounts⟩ := h.accounts
  by_cases hheld : o.held = []
  · rw [release_of_held hheld, hheld, List.append_nil]
    exact haccounts
  · obtain ⟨t, ht⟩ := h.holder hheld
    rw [release_of_holder hheld ht]
    have hall := haccounts.append (.single { t.applied o.held with replacement := [] })
    rwa [List.append_nil] at hall

theorem of_accounts (hheld : o.held = []) (h : Accounts o.changes read o.written) :
    o.Settled a read :=
  ⟨fun hne => absurd hheld hne, read, by rw [hheld, List.append_nil], h⟩

theorem settled_release (h : o.Settled a read) : (o.release a).Settled a read :=
  .of_accounts held_release (by rw [written_release]; exact h.release)

theorem switchUnit (h : o.Settled a read) (unit : Nat) : (o.switchUnit a unit).Settled a read := by
  unfold Output.switchUnit
  split
  · exact h.settled_release
  · exact h

/-- A replacement is written for the held text and what comes last. -/
theorem write (h : o.Settled a read) (t : Transform) (last : Text) :
    (o.write t last).Settled a (read ++ last) := by
  obtain ⟨done, rfl, haccounts⟩ := h.accounts
  refine .of_accounts rfl ?_
  rw [List.append_assoc]
  exact haccounts.append (.single (t.applied (o.held ++ last)))

/-- A registered transform holds back one more symbol. -/
theorem hold (h : o.Settled a read) (ht : a.transform? n = some t) (c : Symbol) :
    (o.hold n c).Settled a (read ++ textOf c) := by
  obtain ⟨done, rfl, haccounts⟩ := h.accounts
  exact ⟨fun _ => ⟨t, ht⟩, done, List.append_assoc .., haccounts⟩

end Settled

/-! ## Where the target ends -/

/-- What has been read is settled, and where the target ends so far, the changes account for what
was written up to there. As long as the target has no end, nothing is changed. -/
structure Balanced (a : Automaton) (w : List Symbol) (o : Output) : Prop where
  settled : o.Settled a (Symbol.text w)
  position_eq : o.position = w.length
  target {n : Nat} {text : Text} : o.targetEnd = some (n, text) →
    n ≤ w.length ∧ Accounts (o.release a).changes (Symbol.text (w.take n)) text
  untouched : o.targetEnd = none → o.changes = [] ∧ o.held = []

theorem balanced_empty : Balanced a [] {} where
  settled := .of_accounts rfl (.kept [])
  position_eq := rfl
  target := nofun
  untouched _ := ⟨rfl, rfl⟩

/-- The target ends where reading has come to. -/
theorem balanced_markTarget (h : o.Settled a (Symbol.text w)) (hposition : o.position = w.length) :
    o.markTarget.Balanced a w where
  settled := ⟨h.holder, h.accounts⟩
  position_eq := hposition
  target {n text} hend := by
    cases hend
    have hchanges : (o.markTarget.release a).changes = (o.release a).changes := by
      unfold markTarget Output.release
      split <;> rfl
    rw [hposition, List.take_length, hchanges]
    exact ⟨Nat.le_refl _, h.release⟩
  untouched := nofun

namespace Balanced

theorem release (h : o.Balanced a w) : (o.release a).Balanced a w where
  settled := h.settled.settled_release
  position_eq := position_release.trans h.position_eq
  target hend := by
    rw [targetEnd_release] at hend
    rw [release_release]
    exact h.target hend
  untouched hend := by
    rw [targetEnd_release] at hend
    rw [release_of_held (h.untouched hend).2]
    exact h.untouched hend

theorem passSilently (h : o.Balanced a w) (s : StateId) : (o.passSilently a s).Balanced a w := by
  unfold Output.passSilently
  split
  · rename_i t ht
    have hsettled := (h.settled.switchUnit t.unit).write t []
    rw [List.append_nil] at hsettled
    exact balanced_markTarget hsettled ((position_switchUnit t.unit).trans h.position_eq)
  · exact h

/-- A symbol without a transform is kept. -/
theorem copy (h : o.Balanced a w) (c : Symbol) : Balanced a (w ++ [c])
    { (o.release a).copy c with position := ((o.release a).copy c).position + 1 } where
  settled := by
    refine .of_accounts held_release ?_
    rw [Symbol.text_append, ← textOf_eq]
    have hall := h.settled.release.append (.kept (textOf c))
    rwa [List.append_nil, ← written_release (a := a)] at hall
  position_eq := by
    rw [List.length_append, List.length_singleton, ← h.release.position_eq]
    rfl
  target {n text} hend := by
    obtain ⟨hle, haccounts⟩ := h.release.target hend
    rw [release_release] at haccounts
    rw [List.take_append_of_le_length hle, List.length_append, release_of_held]
    · exact ⟨Nat.le_add_right_of_le hle, haccounts⟩
    · exact held_release
  untouched hend := h.release.untouched hend

theorem readSymbol (h : o.Balanced a w) (ha : a.Registered) (s : StateId) (c : Symbol) :
    (o.readSymbol a s c).Balanced a (w ++ [c]) := by
  unfold Output.readSymbol
  dsimp only
  split
  · exact h.copy c
  rename_i n hattached
  obtain ⟨t, ht⟩ := ha.exists_transform hattached
  have hsettled := h.settled.switchUnit t.unit
  have hlength : (o.switchUnit a t.unit).position + 1 = (w ++ [c]).length := by
    rw [List.length_append, List.length_singleton, ← h.position_eq, position_switchUnit]
  rw [ht]
  dsimp only
  split
  · have hheld := hsettled.hold ht c
    rw [textOf_eq, ← Symbol.text_append] at hheld
    exact balanced_markTarget ⟨hheld.holder, hheld.accounts⟩ hlength
  · have hwritten := hsettled.write t (textOf c)
    rw [textOf_eq, ← Symbol.text_append] at hwritten
    rw [textOf_eq]
    exact balanced_markTarget ⟨hwritten.holder, hwritten.accounts⟩ hlength

/-- A run keeps the output balanced. -/
theorem run (h : o.Balanced a w) (ha : a.Registered) (hrun : a.Run s steps v u) :
    (steps.foldl (step a) o).Balanced a (w ++ v) := by
  induction hrun generalizing o w with
  | stay => rwa [List.append_nil]
  | @silent s _ _ _ _ _ _ ih => exact ih (h.passSilently s)
  | @read s t u steps c v hc _ _ ih =>
    rw [List.foldl_cons, step_read hc, List.append_cons]
    exact ih (h.readSymbol ha s c)

end Balanced

end Output

/-- Where text has been replaced, the target ends behind some symbols. -/
theorem Output.Balanced.target_pos {a : Automaton} {o : Output} {w : List Symbol} {c : Change}
    (h : o.Balanced a w) (hheld : o.held = []) (hc : c ∈ o.changes) (hne : c.replaced ≠ []) :
    ∃ n text, o.targetEnd = some (n, text) ∧ 0 < n := by
  cases hend : o.targetEnd with
  | none =>
    rw [(h.untouched hend).1] at hc
    cases hc
  | some place =>
    obtain ⟨n, text⟩ := place
    refine ⟨n, text, rfl, Nat.pos_of_ne_zero ?_⟩
    rintro rfl
    have haccounts := (h.target hend).2
    rw [release_of_held hheld] at haccounts
    exact hne (haccounts.replaced_eq_nil rfl c hc)

/-- The output of a path through a span is balanced, and nothing is held any more. -/
theorem Automaton.Run.balanced {a : Automaton} {s u : StateId} {path : List Step}
    {span : List Symbol} (ha : a.Registered) (h : a.Run s path span u) :
    (Output.ofPath a path).Balanced a span ∧ (Output.ofPath a path).held = [] := by
  have hrun : (path.foldl (Output.step a) {}).Balanced a span := Output.balanced_empty.run ha h
  exact ⟨hrun.release, Output.held_release⟩

namespace Table

variable {t : Table} {options : ApplyOptions} {symbols : List Symbol} {found : Match}

/-- What is found covers some of the symbols, from their beginning, and its changes account for
what it writes. -/
theorem accounts_match (ha : t.automaton.Registered) (h : t.match? options symbols = some found) :
    0 < found.length ∧ found.length ≤ symbols.length ∧
      Accounts found.changes (Symbol.text (symbols.take found.length)) found.output := by
  obtain ⟨length, path, targetEnd, written, hlength, hpath, hend, hpos, rfl⟩ :=
    match?_eq_some_iff.mp h
  have hspan := (longest_eq_some_iff.mp hlength).1
  obtain ⟨f, hrun, -⟩ := Automaton.run_of_acceptingPath hpath
  obtain ⟨hbalanced, hheld⟩ := hrun.balanced ha
  split
  · obtain ⟨hle, haccounts⟩ := hbalanced.target hend
    rw [List.length_take, Nat.min_eq_left hspan.le_length] at hle
    rw [Output.release_of_held hheld, List.take_take, Nat.min_eq_left hle] at haccounts
    exact ⟨hpos, Nat.le_trans hle hspan.le_length, haccounts⟩
  · have haccounts := hbalanced.settled.release
    rw [Output.release_of_held hheld] at haccounts
    exact ⟨hspan.pos, hspan.le_length, haccounts⟩

/-- The changes account for what becomes of the symbols behind those that are covered already. -/
theorem accounts_applyFrom (ha : t.automaton.Registered) (options : ApplyOptions)
    (symbols : List Symbol) (skip : Nat) :
    Accounts (t.applyFrom options skip symbols).2 (Symbol.text (symbols.drop skip))
      (t.applyFrom options skip symbols).1 := by
  induction symbols generalizing skip with
  | nil =>
    rw [List.drop_nil]
    cases skip <;> exact .kept []
  | cons c rest ih =>
    cases skip with
    | succ skip => exact ih skip
    | zero =>
      rw [applyFrom]
      split
      · rename_i found hfound
        obtain ⟨hpos, hle, haccounts⟩ := accounts_match ha hfound
        have hlength : found.length - 1 + 1 = found.length := Nat.sub_add_cancel hpos
        have hrest : (c :: rest).drop found.length = rest.drop (found.length - 1) := by
          rw [← hlength, List.drop_succ_cons, hlength]
        have hall := haccounts.append (ih (found.length - 1))
        rwa [← hrest, ← Symbol.text_append, List.take_append_drop] at hall
      · have hall := (ih 0).prepend (Symbol.text [c])
        rwa [← Symbol.text_append, ← Output.textOf_eq] at hall

/-- The changes account for what becomes of a word. -/
theorem accounts_apply (ha : t.automaton.Registered) (word : Text) :
    Accounts (t.apply options word).2 word (t.apply options word).1 := by
  have hall := accounts_applyFrom ha options (Symbol.coat word) 0
  rwa [List.drop_zero, Symbol.text_coat] at hall

end Table

end SoundChange
