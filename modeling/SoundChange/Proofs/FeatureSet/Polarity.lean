import SoundChange.Proofs.FeatureSet

/-!
# With the feature and without it

A base form lacks the feature and a marked form is to carry it, so that adding the feature and
taking it away lead from the one kind to the other (`FeatureSet.Polar`). A pair is refused only for
another pair with the same base form or the same marked form, so a segment can be the marked form
of one pair and the base form of another, or of the same one; such a segment counts as one that
lacks the feature. `FeatureSet.polar_afterAll_iff` says that nothing else stands in the way: the
feature-set is polar if and only if the pairs that were added keep the two roles apart.
-/

namespace SoundChange.FeatureSet

variable {f : FeatureSet} {c : Call} {calls : List Call} {p : Text × Text} {b m x y : Text}

/-! ## The pairs that were added -/

/-- The calls that are not refused. -/
def accepted (f : FeatureSet) : List Call → List Call
  | [] => []
  | c :: calls =>
    if (f.call c).2 = none then c :: accepted (f.call c).1 calls else accepted (f.call c).1 calls

theorem afterAll_cons (f : FeatureSet) (c : Call) (calls : List Call) :
    f.afterAll (c :: calls) = (f.call c).1.afterAll calls := rfl

theorem mem_pairs_call :
    p ∈ (f.call c).1.pairs ↔ p ∈ f.pairs ∨ (f.call c).2 = none ∧ c = .pair p.1 p.2 := by
  cases c with
  | member s => simp [call, addMember]
  | pair b m =>
    rw [call]
    cases hadd : f.addPair b m with
    | error e => simp
    | ok f' =>
      obtain ⟨-, rfl⟩ := addPair_eq_ok_iff.mp hadd
      simp [paired, Prod.ext_iff, or_comm, eq_comm]

/-- The pairs are those of the calls that are not refused. -/
theorem mem_pairs_afterAll :
    p ∈ (f.afterAll calls).pairs ↔ p ∈ f.pairs ∨ .pair p.1 p.2 ∈ f.accepted calls := by
  induction calls generalizing f with
  | nil => simp [afterAll, accepted]
  | cons c calls ih =>
    rw [afterAll_cons, ih, mem_pairs_call, accepted, or_assoc]
    split
    · rename_i hnone
      simp [hnone, eq_comm]
    · rename_i hsome
      simp [hsome]

theorem mem_pairs_afterAll_new (name : Text) :
    p ∈ ((new name).afterAll calls).pairs ↔ .pair p.1 p.2 ∈ (new name).accepted calls := by
  have hnew : ¬ p ∈ (new name).pairs := SortedSet.not_mem_empty
  rw [mem_pairs_afterAll, or_iff_right hnew]

/-! ## The two roles of a segment -/

/-- Adding the feature leads to a segment that carries it, taking it away to one that lacks it, and
no segment is both a base form and a marked form. -/
structure Polar (f : FeatureSet) : Prop where
  added : ∀ x ∈ f.membersFor false, ∃ y, f.transform true x = some y ∧ y ∈ f.membersFor true
  removed : ∀ x y, f.transform false y = some x → y ∈ f.membersFor true ∧ x ∈ f.membersFor false
  apart : ∀ s, f.transform true s = none ∨ f.transform false s = none

/-- No base form of a pair is the marked form of a pair. -/
def RolesApart (f : FeatureSet) : Prop := ∀ p ∈ f.pairs, ∀ q ∈ f.pairs, p.1 ≠ q.2

/-- The same of the pairs that are to be added. -/
def Call.RolesApart (calls : List Call) : Prop :=
  ∀ b m b' m', .pair b m ∈ calls → .pair b' m' ∈ calls → b ≠ m'

theorem rolesApart_afterAll (name : Text) (calls : List Call) :
    ((new name).afterAll calls).RolesApart ↔ Call.RolesApart ((new name).accepted calls) := by
  simp only [RolesApart, Call.RolesApart, Prod.forall, mem_pairs_afterAll_new]
  exact ⟨fun h b m b' m' hb hb' => h b m hb b' m' hb', fun h b m hb b' m' hb' => h b m b' m' hb hb'⟩

namespace Matched

variable (h : f.Matched)
include h

/-- A marked form carries the feature unless it is a base form too. -/
theorem mem_plusMembers_of_addition (hb : f.addition b = some m) :
    m ∈ f.membersFor true ↔ f.transform true m = none := by
  have hplus : m ∈ f.membersFor true ↔ m ∈ f.members ∧ f.addition m = none := mem_plusMembers
  rw [hplus, and_iff_right (h.mem_of_addition hb).2]
  rfl

theorem exists_added (hx : x ∈ f.membersFor false) : ∃ y, f.transform true x = some y ∧
    (y ∈ f.membersFor true ↔ f.transform true y = none) := by
  obtain ⟨y, hy⟩ := h.mem_minusMembers.mp hx
  exact ⟨y, hy, h.mem_plusMembers_of_addition hy⟩

theorem removed_mem (hy : f.transform false y = some x) : x ∈ f.membersFor false ∧
    (y ∈ f.membersFor true ↔ f.transform true y = none) := by
  have hx : f.addition x = some y := h.addition_iff_removal.mpr hy
  exact ⟨h.mem_minusMembers.mpr ⟨y, hx⟩, h.mem_plusMembers_of_addition hx⟩

theorem rolesApart_iff :
    f.RolesApart ↔ ∀ s, f.transform true s = none ∨ f.transform false s = none := by
  constructor
  · intro hapart s
    cases hadd : f.transform true s with
    | none => exact .inl rfl
    | some m =>
      refine .inr (Option.eq_none_iff_forall_ne_some.mpr fun b hremove => ?_)
      exact hapart _ (h.addition_eq_some_iff.mp hadd) _ (h.removal_eq_some_iff.mp hremove) rfl
  · rintro hapart ⟨b, m⟩ hp ⟨b', m'⟩ hq (rfl : b = m')
    have hadd : f.transform true b = some m := h.addition_eq_some_iff.mpr hp
    have hremove : f.transform false b = some b' := h.removal_eq_some_iff.mpr hq
    rcases hapart b with hnone | hnone
    · cases hadd.symm.trans hnone
    · cases hremove.symm.trans hnone

theorem polar_iff : f.Polar ↔ f.RolesApart := by
  refine ⟨fun hpolar => h.rolesApart_iff.mpr hpolar.apart, fun hroles => ?_⟩
  have hapart := h.rolesApart_iff.mp hroles
  -- A marked form is no base form, so nothing is left to keep it from carrying the feature.
  have hbase (x y : Text) (hy : f.transform false y = some x) : f.transform true y = none := by
    refine (hapart y).resolve_right fun hnone => ?_
    cases hy.symm.trans hnone
  refine ⟨fun x hx => ?_, fun x y hy => ?_, hapart⟩
  · obtain ⟨y, hy, hplus⟩ := h.exists_added hx
    exact ⟨y, hy, hplus.mpr (hbase x y (h.addition_iff_removal.mp hy))⟩
  · obtain ⟨hx, hplus⟩ := h.removed_mem hy
    exact ⟨hplus.mpr (hbase x y hy), hx⟩

end Matched

/-- A base form has a marked form, and a marked form a base form that lacks the feature; the marked
form carries it unless it is the base form of a pair. So the feature-set is polar if and only if no
pair that was added has its base form as the marked form of a pair that was added. -/
theorem polar_afterAll_iff (name : Text) (calls : List Call) :
    let f := (new name).afterAll calls
    (∀ x ∈ f.membersFor false, ∃ y, f.transform true x = some y ∧
      (y ∈ f.membersFor true ↔ f.transform true y = none)) ∧
    (∀ x y, f.transform false y = some x → x ∈ f.membersFor false ∧
      (y ∈ f.membersFor true ↔ f.transform true y = none)) ∧
    (f.Polar ↔ Call.RolesApart ((new name).accepted calls)) := by
  intro f
  have h : f.Matched := (Matched.new name).afterAll calls
  exact ⟨fun _ => h.exists_added, fun _ _ => h.removed_mem,
    h.polar_iff.trans (rolesApart_afterAll name calls)⟩

/-- Two pairs of which the first leads to where the second begins. -/
def chain : List Call := [.pair ['p'] ['b'], .pair ['b'] ['v']]

/-- Both pairs of a chain are added, and then the segment between them, which is made by adding the
feature, counts as one that lacks it. -/
theorem chain_not_polar :
    let f := (new ['f']).afterAll chain
    (new ['f']).accepted chain = chain ∧ ['p'] ∈ f.membersFor false ∧
      f.transform true ['p'] = some ['b'] ∧ ['b'] ∉ f.membersFor true ∧ ¬ f.Polar := by
  intro f
  have h : f.Matched := (Matched.new ['f']).afterAll chain
  have hfirst : f.addition ['p'] = some ['b'] := by decide
  have hsecond : f.transform true ['b'] = some ['v'] := by decide
  have hminus : ['p'] ∈ f.membersFor false := h.mem_minusMembers.mpr ⟨['b'], hfirst⟩
  have hlost : ['b'] ∉ f.membersFor true := by
    rw [h.mem_plusMembers_of_addition hfirst, hsecond]
    exact nofun
  refine ⟨by decide, hminus, hfirst, hlost, fun hpolar => ?_⟩
  obtain ⟨y, hy, hplus⟩ := hpolar.added ['p'] hminus
  obtain rfl : ['b'] = y := Option.some.inj (hfirst.symm.trans hy)
  exact hlost hplus

end SoundChange.FeatureSet
