import SoundChange.Proofs.Forest
import SoundChange.Proofs.Trie

/-!
# The forest of a trie

Below a cell the forest holds what the path of the cell goes on with to a segment
(`Trie.HoldsJust.has_below`), and its branches ascend (`Trie.HoldsJust.wellFormed_below`). So the
forest of a set holds its segments but for the empty one (`Trie.has_ofSet`).
-/

namespace SoundChange.Trie

variable {t : Trie} {i j : Nat} {c : Char} {v w : Text} {held : Text → Prop}

/-- The branch of a child, with those of the children behind it. -/
def branchOf (t : Trie) (j : Nat) (beside : Forest) : Forest :=
  match t.charAt j with
  | some c => .branch c (t.memberAt j).isSome (t.below j) beside
  | none => beside

theorem branchOf_of_charAt (h : t.charAt j = some c) (beside : Forest) :
    t.branchOf j beside = .branch c (t.memberAt j).isSome (t.below j) beside := by
  rw [branchOf, h]

theorem branchOf_of_not_charAt (h : t.charAt j = none) (beside : Forest) :
    t.branchOf j beside = beside := by
  rw [branchOf, h]

theorem below_eq (t : Trie) (i : Nat) : t.below i = (t.childrenOf i).foldr t.branchOf .empty := by
  rw [below]
  exact List.foldr_attach (f := t.branchOf)

theorem has_foldr_branchOf (children : List Nat) : (children.foldr t.branchOf .empty).Has w ↔
    ∃ j ∈ children, ∃ c v, t.charAt j = some c ∧ w = c :: v ∧
      (v = [] ∧ (t.memberAt j).isSome = true ∨ (t.below j).Has v) := by
  induction children with
  | nil => simp [Forest.Has]
  | cons j children ih =>
    simp only [List.foldr_cons, List.mem_cons, or_and_right, exists_or, exists_eq_left]
    cases hc : t.charAt j with
    | none => simp [branchOf_of_not_charAt hc, ih]
    | some c => simp [branchOf_of_charAt hc, Forest.Has, ih]

theorem firstChars_foldr_branchOf (children : List Nat) :
    (children.foldr t.branchOf .empty).firstChars = children.filterMap t.charAt := by
  induction children with
  | nil => rfl
  | cons j children ih =>
    rw [List.foldr_cons, List.filterMap_cons]
    cases hc : t.charAt j with
    | none => rw [branchOf_of_not_charAt hc, ih]
    | some c => rw [branchOf_of_charAt hc, Forest.firstChars, ih]

theorem firstChars_below (t : Trie) (i : Nat) :
    (t.below i).firstChars = (t.childrenOf i).filterMap t.charAt := by
  rw [below_eq, firstChars_foldr_branchOf]

theorem mem_firstChars : c ∈ t.firstChars ↔ c ∈ t.forest.firstChars := by
  rw [forest, firstChars_below, firstChars, ← SortedSet.mem_def, SortedSet.mem_ofList]

/-- Below a cell are the segments that go on behind its path. The induction goes from a cell to its
children, which have larger numbers. -/
theorem HoldsJust.has_below (h : t.HoldsJust held) (hi : i < t.size) :
    (t.below i).Has w ↔ w ≠ [] ∧ held (t.path i ++ w) := by
  induction hn : t.size - i using Nat.strongRecOn generalizing i w with
  | ind n ih =>
    have hchild {j : Nat} {v : Text} (hj : j ∈ t.childrenOf i) :
        (t.below j).Has v ↔ v ≠ [] ∧ held (t.path j ++ v) :=
      have hlt := lt_of_mem_childrenOf hj
      ih (t.size - j) (by omega) hlt.2 rfl
    rw [below_eq, has_foldr_branchOf]
    constructor
    · rintro ⟨j, hj, c, v, hc, rfl, hv⟩
      have hpath : t.path i ++ c :: v = t.path j ++ v := by
        rw [h.linked.path_child hj hc, List.append_assoc]
        rfl
      refine ⟨List.cons_ne_nil c v, ?_⟩
      rw [hpath]
      rcases hv with ⟨rfl, hmember⟩ | hv
      · obtain ⟨u, hu⟩ := Option.isSome_iff_exists.mp hmember
        obtain ⟨hheld, rfl⟩ := (h.memberAt_iff (lt_of_mem_childrenOf hj).2).mp hu
        rwa [List.append_nil]
      · exact ((hchild hj).mp hv).2
    · rintro ⟨hne, hheld⟩
      obtain ⟨c, v, rfl⟩ := List.exists_cons_of_ne_nil hne
      have hsplit : t.path i ++ c :: v = (t.path i ++ [c]) ++ v := by
        rw [List.append_assoc]
        rfl
      rw [hsplit] at hheld
      obtain ⟨j, hj⟩ := h.spells_iff.mpr (.inr ⟨_, hheld, List.prefix_append _ _⟩)
      obtain ⟨hmem, hc⟩ :=
        h.linked.child_eq_some_iff.mp ((h.linked.child_eq_some_iff_path hi).mpr hj)
      rw [← hj.2] at hheld
      refine ⟨j, hmem, c, v, hc, rfl, ?_⟩
      cases v with
      | nil =>
        rw [List.append_nil] at hheld
        have hmember := (h.memberAt_iff hj.1).mpr ⟨hheld, rfl⟩
        exact .inl ⟨rfl, Option.isSome_iff_exists.mpr ⟨_, hmember⟩⟩
      | cons d v => exact .inr ((hchild hmem).mpr ⟨List.cons_ne_nil d v, hheld⟩)

/-- A cell with nothing below it ends a segment. -/
theorem HoldsJust.isSome_memberAt (h : t.HoldsJust held) (hj : j ∈ t.childrenOf i)
    (hempty : (t.below j).isEmpty = true) : (t.memberAt j).isSome = true := by
  obtain ⟨hlt, hsize⟩ := lt_of_mem_childrenOf hj
  have hleaf : t.childrenOf j = [] := by
    have hfirst := firstChars_below t j
    rw [Forest.eq_empty_of_isEmpty hempty, Forest.firstChars] at hfirst
    refine List.eq_nil_iff_forall_not_mem.mpr fun k hk => ?_
    obtain ⟨c, hc⟩ := h.linked.exists_charAt hk
    have hmem : c ∈ (t.childrenOf j).filterMap t.charAt := List.mem_filterMap.mpr ⟨k, hk, hc⟩
    rw [← hfirst] at hmem
    cases hmem
  rcases h.leaf hsize hleaf with hone | hmember
  · omega
  · exact Option.isSome_iff_exists.mpr hmember

theorem HoldsJust.wellFormed_below (h : t.HoldsJust held) (i : Nat) : (t.below i).WellFormed := by
  induction hn : t.size - i using Nat.strongRecOn generalizing i with
  | ind n ih =>
    rw [below_eq]
    have hlist : ∀ children : List Nat, (∀ j ∈ children, j ∈ t.childrenOf i) →
        children.Pairwise t.Before → (children.foldr t.branchOf .empty).WellFormed := by
      intro children
      induction children with
      | nil => exact fun _ _ => trivial
      | cons j children ihlist =>
        intro hmem hascending
        obtain ⟨hj, hmem⟩ := List.forall_mem_cons.mp hmem
        obtain ⟨hbefore, hascending⟩ := List.pairwise_cons.mp hascending
        obtain ⟨c, hc⟩ := h.linked.exists_charAt hj
        have hlt := lt_of_mem_childrenOf hj
        rw [List.foldr_cons, branchOf_of_charAt hc]
        refine ⟨h.isSome_memberAt hj, fun d hd => ?_, ih (t.size - j) (by omega) j rfl,
          ihlist hmem hascending⟩
        rw [firstChars_foldr_branchOf, List.mem_filterMap] at hd
        obtain ⟨k, hk, hd⟩ := hd
        obtain ⟨c', d', hc', hd', hcd⟩ := hbefore k hk
        cases hc.symm.trans hc'
        cases hd.symm.trans hd'
        exact hcd
    exact hlist _ (fun _ hj => hj) (h.linked.ascending i)

/-- The forest of a set holds its segments but for the empty one. -/
theorem has_ofSet {members : SortedSet Text} :
    (ofSet members).forest.Has v ↔ v ∈ members ∧ v ≠ [] := by
  have h := holdsJust_ofSet members
  rw [forest, h.has_below (pos _), h.linked.path_zero, List.nil_append, and_left_comm, and_self]

theorem wellFormed_ofSet (members : SortedSet Text) : (ofSet members).forest.WellFormed :=
  (holdsJust_ofSet members).wellFormed_below 0

end SoundChange.Trie
