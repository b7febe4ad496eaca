import SoundChange.FeatureSet
import Mathlib.Logic.Basic

/-!
# The pairs of a feature-set

A feature-set is looked through for a base form or for a marked form, and the first pair with it is
taken. `FeatureSet.Matched` says that there is never another one, and that both forms are members.
Every call keeps that, whether it fails or not (`Matched.call`), so it holds after any calls
(`Matched.afterAll`). Hence the two directions undo each other, a member either lacks the feature or
carries it, and a call changes both directions or none (`FeatureSet.Coherent`).
-/

namespace SoundChange

/-- No two elements with the same key have different values. -/
def SortedSet.Determines {α β γ : Type} [Ranked α] (s : SortedSet α) (key : α → β) (val : α → γ) :
    Prop :=
  ∀ x ∈ s, ∀ y ∈ s, key x = key y → val x = val y

namespace SortedSet.Determines

variable {α β γ : Type} [Ranked α] {s : SortedSet α} {key : α → β} {val : α → γ} {x : α}

theorem empty : (SortedSet.empty : SortedSet α).Determines key val :=
  fun _ hx => absurd hx not_mem_empty

theorem insert (h : s.Determines key val) (hx : ∀ y ∈ s, key y = key x → val y = val x) :
    (s.insert x).Determines key val := by
  intro y hy z hz hkey
  rcases mem_insert.mp hy with rfl | hy'
  · rcases mem_insert.mp hz with rfl | hz'
    · rfl
    · exact (hx z hz' hkey.symm).symm
  · rcases mem_insert.mp hz with rfl | hz'
    · exact hx y hy' hkey
    · exact h y hy' z hz' hkey

/-- Looking a key up finds its value. -/
theorem find?_eq_some_iff [DecidableEq β] (h : s.Determines key val) {k : β} {v : γ} :
    (s.toList.find? fun x => key x = k).map val = some v ↔ ∃ x ∈ s, key x = k ∧ val x = v := by
  rw [Option.map_eq_some_iff]
  constructor
  · rintro ⟨x, hx, hv⟩
    exact ⟨x, List.mem_of_find?_eq_some hx, by simpa using List.find?_some hx, hv⟩
  · rintro ⟨x, hx, hk, hv⟩
    cases hfind : s.toList.find? fun x => key x = k with
    | none => exact absurd hk (by simpa using List.find?_eq_none.mp hfind x hx)
    | some y =>
      have hy : key y = k := by simpa using List.find?_some hfind
      have hval := h y (List.mem_of_find?_eq_some hfind) x hx (hy.trans hk.symm)
      exact ⟨y, rfl, hval.trans hv⟩

end SortedSet.Determines

namespace FeatureSet

variable {f f' : FeatureSet} {b m s : Text}

/-- A call that adds a segment or a pair. -/
inductive Call where
  | member (segment : Text)
  | pair (base marked : Text)
  deriving DecidableEq, Repr

/-- The feature-set after a call, and the conflict that the call reports. The error of `addPair`
comes without a feature-set: a pair is checked against both maps before a member or a map is
changed, so that a call with a conflict leaves all three. -/
def call (f : FeatureSet) : Call → FeatureSet × Option FeatureConflict
  | .member segment => (f.addMember segment, none)
  | .pair base marked =>
    match f.addPair base marked with
    | .ok f => (f, none)
    | .error e => (f, some e)

/-- The feature-set after some calls, whether they fail or not. -/
def afterAll (f : FeatureSet) (calls : List Call) : FeatureSet :=
  calls.foldl (fun f c => (f.call c).1) f

/-! ## The other form of a segment -/

theorem mem_pairs_of_addition (h : f.addition b = some m) : (b, m) ∈ f.pairs := by
  obtain ⟨⟨b', m'⟩, hp, rfl⟩ := Option.map_eq_some_iff.mp h
  obtain rfl : b' = b := by simpa using List.find?_some hp
  exact List.mem_of_find?_eq_some hp

theorem mem_pairs_of_removal (h : f.removal m = some b) : (b, m) ∈ f.pairs := by
  obtain ⟨⟨b', m'⟩, hp, rfl⟩ := Option.map_eq_some_iff.mp h
  obtain rfl : m' = m := by simpa using List.find?_some hp
  exact List.mem_of_find?_eq_some hp

theorem addition_eq_none_iff : f.addition b = none ↔ ∀ m, (b, m) ∉ f.pairs := by
  rw [addition, Option.map_eq_none_iff, List.find?_eq_none]
  constructor
  · intro h m hp
    exact h _ hp (decide_eq_true rfl)
  · rintro h ⟨b', m'⟩ hp hb
    obtain rfl : b' = b := of_decide_eq_true hb
    exact h m' hp

theorem removal_eq_none_iff : f.removal m = none ↔ ∀ b, (b, m) ∉ f.pairs := by
  rw [removal, Option.map_eq_none_iff, List.find?_eq_none]
  constructor
  · intro h b hp
    exact h _ hp (decide_eq_true rfl)
  · rintro h ⟨b', m'⟩ hp hm
    obtain rfl : m' = m := of_decide_eq_true hm
    exact h b' hp

/-- What a segment becomes when it is given the feature, or when it loses it: the other form of a
pair that has it as base form, or as marked form, and the same segment if no pair has. -/
inductive Turns (f : FeatureSet) : Bool → Text → Text → Prop where
  | given {b m : Text} : (b, m) ∈ f.pairs → Turns f true b m
  | lost {b m : Text} : (b, m) ∈ f.pairs → Turns f false m b
  | noMarked {s : Text} : (∀ m, (s, m) ∉ f.pairs) → Turns f true s s
  | noBase {s : Text} : (∀ b, (b, s) ∉ f.pairs) → Turns f false s s

/-- What is looked up for a segment, or the segment itself, is what it becomes. -/
theorem turns_transform (f : FeatureSet) (present : Bool) (s : Text) :
    f.Turns present s ((f.transform present s).getD s) := by
  cases present with
  | true =>
    show f.Turns true s ((f.addition s).getD s)
    cases h : f.addition s with
    | none => exact .noMarked (addition_eq_none_iff.mp h)
    | some m => exact .given (mem_pairs_of_addition h)
  | false =>
    show f.Turns false s ((f.removal s).getD s)
    cases h : f.removal s with
    | none => exact .noBase (removal_eq_none_iff.mp h)
    | some b => exact .lost (mem_pairs_of_removal h)

/-! ## What a call does -/

/-- The base form has another marked form, or the marked form has another base form. -/
def Conflicts (f : FeatureSet) (b m : Text) : Prop :=
  (∃ m', f.addition b = some m' ∧ m' ≠ m) ∨ ∃ b', f.removal m = some b' ∧ b' ≠ b

/-- A pair is refused because its base form or, failing that, its marked form is in another pair, or
else it is added. -/
theorem addPair_cases (f : FeatureSet) (b m : Text) :
    (∃ m', f.addition b = some m' ∧ m' ≠ m ∧ f.addPair b m = .error (.baseMapped b m')) ∨
    (∃ b', f.removal m = some b' ∧ b' ≠ b ∧ (∀ m', f.addition b = some m' → m' = m) ∧
      f.addPair b m = .error (.markedMapped m b')) ∨
    ¬ f.Conflicts b m ∧ f.addPair b m = .ok (f.paired b m) := by
  unfold addPair
  cases hb : (f.addition b).filter (· ≠ m) with
  | some m' =>
    obtain ⟨hm', hne⟩ := Option.filter_eq_some_iff.mp hb
    exact .inl ⟨m', hm', by simpa using hne, rfl⟩
  | none =>
    have hbase : ∀ m', f.addition b = some m' → m' = m := by simpa using hb
    cases hm : (f.removal m).filter (· ≠ b) with
    | some b' =>
      obtain ⟨hb', hne⟩ := Option.filter_eq_some_iff.mp hm
      exact .inr (.inl ⟨b', hb', by simpa using hne, hbase, rfl⟩)
    | none =>
      have hmarked : ∀ b', f.removal m = some b' → b' = b := by simpa using hm
      refine .inr (.inr ⟨?_, rfl⟩)
      rintro (⟨m', hm', hne⟩ | ⟨b', hb', hne⟩)
      · exact hne (hbase m' hm')
      · exact hne (hmarked b' hb')

theorem addPair_eq_ok_iff : f.addPair b m = .ok f' ↔ ¬ f.Conflicts b m ∧ f' = f.paired b m := by
  obtain ⟨m', hm', hne, heq⟩ | ⟨b', hb', hne, heq⟩ | ⟨hfree, heq⟩ := f.addPair_cases b m
  · simp [heq, Conflicts, hm', hne]
  · simp [heq, Conflicts, hb', hne]
  · simp [heq, hfree, eq_comm]

theorem addPair_eq_error_iff : (∃ e, f.addPair b m = .error e) ↔ f.Conflicts b m := by
  cases hadd : f.addPair b m with
  | ok f' => simp [(addPair_eq_ok_iff.mp hadd).1]
  | error e =>
    by_cases hconflicts : f.Conflicts b m
    · simp [hconflicts]
    · rw [addPair_eq_ok_iff.mpr ⟨hconflicts, rfl⟩] at hadd
      cases hadd

/-! ## One pair for each form -/

/-- The pairs match base forms one-to-one with marked forms, and the forms are members. -/
structure Matched (f : FeatureSet) : Prop where
  marked : f.pairs.Determines Prod.fst Prod.snd
  base : f.pairs.Determines Prod.snd Prod.fst
  members : ∀ p ∈ f.pairs, p.1 ∈ f.members ∧ p.2 ∈ f.members

namespace Matched

theorem addition_eq_some_iff (h : f.Matched) : f.addition b = some m ↔ (b, m) ∈ f.pairs := by
  rw [addition, h.marked.find?_eq_some_iff]
  constructor
  · rintro ⟨_, hp, rfl, rfl⟩
    exact hp
  · intro hp
    exact ⟨_, hp, rfl, rfl⟩

theorem removal_eq_some_iff (h : f.Matched) : f.removal m = some b ↔ (b, m) ∈ f.pairs := by
  rw [removal, h.base.find?_eq_some_iff]
  constructor
  · rintro ⟨_, hp, rfl, rfl⟩
    exact hp
  · intro hp
    exact ⟨_, hp, rfl, rfl⟩

/-- Where the pairs are one-to-one, a segment becomes nothing but what is looked up. -/
theorem turns_iff (h : f.Matched) {present : Bool} {s t : Text} :
    f.Turns present s t ↔ t = (f.transform present s).getD s := by
  refine ⟨fun hturns => ?_, fun ht => ht ▸ f.turns_transform present s⟩
  cases hturns with
  | given hp => rw [transform, if_pos rfl, h.addition_eq_some_iff.mpr hp, Option.getD_some]
  | lost hp =>
    rw [transform, if_neg Bool.false_ne_true, h.removal_eq_some_iff.mpr hp, Option.getD_some]
  | noMarked hs => rw [transform, if_pos rfl, addition_eq_none_iff.mpr hs, Option.getD_none]
  | noBase hs =>
    rw [transform, if_neg Bool.false_ne_true, removal_eq_none_iff.mpr hs, Option.getD_none]

theorem new (name : Text) : (new name).Matched where
  marked := .empty
  base := .empty
  members _ hp := absurd hp SortedSet.not_mem_empty

theorem addMember (h : f.Matched) (s : Text) : (f.addMember s).Matched where
  marked := h.marked
  base := h.base
  members p hp := (h.members p hp).imp (SortedSet.mem_insert.mpr <| .inr ·)
    (SortedSet.mem_insert.mpr <| .inr ·)

/-- A pair that has no conflict leaves each of its forms in no other pair. -/
theorem paired (h : f.Matched) (hfree : ¬ f.Conflicts b m) : (f.paired b m).Matched := by
  simp only [Conflicts, h.addition_eq_some_iff, h.removal_eq_some_iff, not_or, not_exists, not_and,
    not_not] at hfree
  refine ⟨h.marked.insert ?_, h.base.insert ?_, fun p hp => ?_⟩
  · rintro ⟨b', m'⟩ hp rfl
    exact hfree.1 m' hp
  · rintro ⟨b', m'⟩ hp rfl
    exact hfree.2 b' hp
  · simp only [FeatureSet.paired, SortedSet.mem_insert]
    rcases SortedSet.mem_insert.mp hp with rfl | hp
    · simp
    · exact (h.members p hp).imp (.inr <| .inr ·) (.inr <| .inr ·)

/-- A call keeps the matching, whether it fails or not. -/
theorem call (h : f.Matched) (c : Call) : (f.call c).1.Matched := by
  cases c with
  | member s => exact h.addMember s
  | pair b m =>
    rw [FeatureSet.call]
    cases hadd : f.addPair b m with
    | error e => exact h
    | ok f' =>
      obtain ⟨hfree, rfl⟩ := addPair_eq_ok_iff.mp hadd
      exact h.paired hfree

theorem afterAll (h : f.Matched) (calls : List Call) : (f.afterAll calls).Matched := by
  induction calls generalizing f with
  | nil => exact h
  | cons c calls ih => exact ih (h.call c)

/-! ## The two directions -/

/-- One more pair changes where its base form leads, and nothing else in that direction. -/
theorem addition_paired (h : f.Matched) (hfree : ¬ f.Conflicts b m) :
    (f.paired b m).addition s = if s = b then some m else f.addition s := by
  have hlater := h.paired hfree
  split
  · subst s
    exact hlater.addition_eq_some_iff.mpr (SortedSet.mem_insert.mpr (.inl rfl))
  · rename_i hs
    refine Option.ext fun x => ?_
    rw [hlater.addition_eq_some_iff, h.addition_eq_some_iff, FeatureSet.paired,
      SortedSet.mem_insert]
    simp [hs]

/-- One more pair changes where its marked form leads back, and nothing else in that direction. -/
theorem removal_paired (h : f.Matched) (hfree : ¬ f.Conflicts b m) :
    (f.paired b m).removal s = if s = m then some b else f.removal s := by
  have hlater := h.paired hfree
  split
  · subst s
    exact hlater.removal_eq_some_iff.mpr (SortedSet.mem_insert.mpr (.inl rfl))
  · rename_i hs
    refine Option.ext fun x => ?_
    rw [hlater.removal_eq_some_iff, h.removal_eq_some_iff, FeatureSet.paired,
      SortedSet.mem_insert]
    simp [hs]

/-- The two directions undo each other. -/
theorem addition_iff_removal (h : f.Matched) : f.addition b = some m ↔ f.removal m = some b := by
  rw [h.addition_eq_some_iff, h.removal_eq_some_iff]

theorem mem_of_addition (h : f.Matched) (hb : f.addition b = some m) :
    b ∈ f.members ∧ m ∈ f.members :=
  h.members _ (h.addition_eq_some_iff.mp hb)

theorem mem_minusMembers (h : f.Matched) : s ∈ f.minusMembers ↔ ∃ m, f.addition s = some m := by
  simp only [minusMembers, SortedSet.mem_ofList, List.mem_map, h.addition_eq_some_iff]
  constructor
  · rintro ⟨p, hp, rfl⟩
    exact ⟨p.2, hp⟩
  · rintro ⟨m, hp⟩
    exact ⟨_, hp, rfl⟩

end Matched

theorem mem_plusMembers : s ∈ f.plusMembers ↔ s ∈ f.members ∧ f.addition s = none := by
  rw [plusMembers, SortedSet.mem_filter, Option.isNone_iff_eq_none]

/-- What holds of a feature-set whichever calls have been made: its two directions undo each other,
its members are those of the two kinds, and a pair is refused for a conflict and nothing else, or
added in both directions. -/
structure Coherent (f : FeatureSet) : Prop where
  addition_iff : ∀ {b m}, f.addition b = some m ↔ f.removal m = some b
  undone : ∀ b ∈ f.membersFor false,
    ∃ m, f.transform true b = some m ∧ f.transform false m = some b
  mem_of_addition : ∀ {b m}, f.addition b = some m → b ∈ f.members ∧ m ∈ f.members
  mem_of_removal : ∀ {b m}, f.removal m = some b → m ∈ f.members ∧ b ∈ f.members
  disjoint : ∀ s ∈ f.membersFor false, s ∉ f.membersFor true
  mem_iff : ∀ {s}, s ∈ f.members ↔ s ∈ f.membersFor false ∨ s ∈ f.membersFor true
  refused_iff : ∀ {b m}, (∃ e, f.addPair b m = .error e) ↔
    (∃ m', f.addition b = some m' ∧ m' ≠ m) ∨ ∃ b', f.removal m = some b' ∧ b' ≠ b
  refused : ∀ {b m e}, f.addPair b m = .error e → f.call (.pair b m) = (f, some e)
  added : ∀ {b m f'}, f.addPair b m = .ok f' →
    (∀ s, f'.addition s = if s = b then some m else f.addition s) ∧
      ∀ s, f'.removal s = if s = m then some b else f.removal s

theorem Matched.coherent (h : f.Matched) : f.Coherent where
  addition_iff := h.addition_iff_removal
  undone b hb := by
    obtain ⟨m, hm⟩ := h.mem_minusMembers.mp hb
    exact ⟨m, hm, h.addition_iff_removal.mp hm⟩
  mem_of_addition := h.mem_of_addition
  mem_of_removal hm := (h.mem_of_addition (h.addition_iff_removal.mpr hm)).symm
  disjoint s hminus hplus := by
    obtain ⟨m, hm⟩ := h.mem_minusMembers.mp hminus
    obtain ⟨-, hnone⟩ := mem_plusMembers.mp hplus
    cases hm.symm.trans hnone
  mem_iff {s} := by
    show s ∈ f.members ↔ s ∈ f.minusMembers ∨ s ∈ f.plusMembers
    rw [h.mem_minusMembers, mem_plusMembers]
    constructor
    · intro hs
      cases hm : f.addition s with
      | none => exact .inr ⟨hs, rfl⟩
      | some m => exact .inl ⟨m, rfl⟩
    · rintro (⟨m, hm⟩ | ⟨hs, -⟩)
      · exact (h.mem_of_addition hm).1
      · exact hs
  refused_iff := addPair_eq_error_iff
  refused he := by rw [FeatureSet.call, he]
  added hok := by
    obtain ⟨hfree, rfl⟩ := addPair_eq_ok_iff.mp hok
    exact ⟨fun _ => h.addition_paired hfree, fun _ => h.removal_paired hfree⟩

/-- A feature-set to which segments and pairs are added is coherent at any time. -/
theorem coherent_afterAll (name : Text) (calls : List Call) :
    ((new name).afterAll calls).Coherent :=
  ((Matched.new name).afterAll calls).coherent

/-- A refused pair leaves no trace, and a marked form can be the base form of another pair. -/
example :
    let f := (new ['v']).afterAll [.pair ['p'] ['b'], .pair ['p'] ['f'], .pair ['b'] ['v']]
    f.addition ['p'] = some ['b'] ∧ f.addition ['b'] = some ['v'] ∧ f.removal ['f'] = none := by
  decide

end FeatureSet

end SoundChange
