import SoundChange.RankedMap

/-!
# Sorted sets

A finite set kept as the strictly ascending list of its elements, so that two sets with the same
elements are equal (`SortedSet.ext`) and listing a set is listing it in order.

`mem_insert`, `mem_union`, `mem_filter` and `mem_ofList` say what each operation does to the
elements; nothing else about the representation is needed outside this module.
-/

namespace SoundChange

/-- A finite set, held as its elements in ascending order. -/
structure SortedSet (α : Type) [Ranked α] where
  toList : List α
  ascending : toList.Pairwise fun a b => Ranked.before a b = true
  deriving DecidableEq

namespace SortedSet

variable {α : Type} [Ranked α]

instance : Membership α (SortedSet α) where
  mem s a := a ∈ s.toList

theorem mem_def {a : α} {s : SortedSet α} : a ∈ s ↔ a ∈ s.toList := Iff.rfl

/-- Merges an ascending list that begins with `a` with another one; `rest` merges what is behind
`a`. -/
def mergeFrom (a : α) (as : List α) (rest : List α → List α) : List α → List α
  | [] => a :: as
  | b :: bs =>
    match Ranked.ordering a b with
    | .lt => a :: rest (b :: bs)
    | .eq => a :: rest bs
    | .gt => b :: mergeFrom a as rest bs

/-- Merges two ascending lists and takes common elements once. -/
def merge : List α → List α → List α
  | [], bs => bs
  | a :: as, bs => mergeFrom a as (merge as) bs

theorem mem_merge {x : α} : ∀ {as bs : List α}, x ∈ merge as bs ↔ x ∈ as ∨ x ∈ bs
  | [], bs => by simp [merge]
  | a :: as, [] => by simp [merge, mergeFrom]
  | a :: as, b :: bs => by
    have hgt := @mem_merge x (a :: as) bs
    rw [merge] at hgt ⊢
    rw [mergeFrom]
    split
    · simp only [List.mem_cons, @mem_merge _ as, or_assoc]
    · rename_i h
      rw [Ranked.ordering_eq.mp h]
      simp only [List.mem_cons, @mem_merge _ as]
      grind
    · simp only [List.mem_cons] at hgt ⊢
      grind

theorem ascending_merge : ∀ {as bs : List α},
    as.Pairwise (fun x y => Ranked.before x y = true) →
    bs.Pairwise (fun x y => Ranked.before x y = true) →
    (merge as bs).Pairwise fun x y => Ranked.before x y = true
  | [], bs, _, hb => hb
  | a :: as, [], ha, _ => by simpa [merge, mergeFrom] using ha
  | a :: as, b :: bs, ha, hb => by
    have hgt := ascending_merge ha hb.of_cons
    have hmem (x : α) := @mem_merge α _ x (a :: as) bs
    simp only [merge] at hgt hmem ⊢
    rw [mergeFrom]
    rw [List.pairwise_cons] at ha hb
    split
    · rename_i h
      have hab := Ranked.before_iff.mpr h
      refine List.pairwise_cons.mpr
        ⟨fun x hx => ?_, ascending_merge ha.2 (List.pairwise_cons.mpr hb)⟩
      rcases mem_merge.mp hx with hx | hx
      · exact ha.1 x hx
      · rcases List.mem_cons.mp hx with rfl | hx
        · exact hab
        · exact Ranked.trans hab (hb.1 x hx)
    · rename_i h
      obtain rfl := Ranked.ordering_eq.mp h
      refine List.pairwise_cons.mpr ⟨fun x hx => ?_, ascending_merge ha.2 hb.2⟩
      exact (mem_merge.mp hx).elim (ha.1 x) (hb.1 x)
    · rename_i h
      have hba := Ranked.before_iff.mpr (Std.OrientedCmp.gt_iff_lt.mp h)
      refine List.pairwise_cons.mpr ⟨fun x hx => ?_, hgt⟩
      rcases (hmem x).mp hx with hx | hx
      · rcases List.mem_cons.mp hx with rfl | hx
        · exact hba
        · exact Ranked.trans hba (ha.1 x hx)
      · exact hb.1 x hx

/-- The set without elements. -/
def empty : SortedSet α := ⟨[], .nil⟩

instance : EmptyCollection (SortedSet α) := ⟨empty⟩

instance : Inhabited (SortedSet α) := ⟨empty⟩

/-- The elements of either set. -/
def union (s t : SortedSet α) : SortedSet α :=
  ⟨merge s.toList t.toList, ascending_merge s.ascending t.ascending⟩

/-- The set with one more element. -/
def insert (a : α) (s : SortedSet α) : SortedSet α :=
  ⟨merge [a] s.toList, ascending_merge (List.pairwise_singleton ..) s.ascending⟩

/-- The elements of a search tree. -/
def ofRanked (s : RankedSet α) : SortedSet α :=
  ⟨s.toList, Std.TreeSet.ordered_toList.imp Ranked.before_iff.mpr⟩

/-- The elements of a list, in order and each once. -/
def ofList (l : List α) : SortedSet α := ofRanked (.insertMany ∅ l)

/-- The elements that pass a test. -/
def filter (p : α → Bool) (s : SortedSet α) : SortedSet α :=
  ⟨s.toList.filter p, s.ascending.filter p⟩

/-- The set has no elements. -/
def isEmpty (s : SortedSet α) : Bool := s.toList.isEmpty

/-- Tests membership by looking through the list. -/
def contains (s : SortedSet α) (a : α) : Bool :=
  s.toList.any fun b => Ranked.ordering a b = .eq

@[simp] theorem not_mem_empty {a : α} : ¬ a ∈ (empty : SortedSet α) := List.not_mem_nil

@[simp] theorem mem_insert {a x : α} {s : SortedSet α} : x ∈ s.insert a ↔ x = a ∨ x ∈ s := by
  rw [mem_def, insert, mem_merge, List.mem_singleton, mem_def]

@[simp] theorem mem_ofRanked {a : α} {s : RankedSet α} : a ∈ ofRanked s ↔ a ∈ s :=
  Std.TreeSet.mem_toList

@[simp] theorem mem_ofList {x : α} {l : List α} : x ∈ ofList l ↔ x ∈ l := by
  classical simp [ofList]

@[simp] theorem mem_union {x : α} {s t : SortedSet α} : x ∈ s.union t ↔ x ∈ s ∨ x ∈ t :=
  mem_merge

@[simp] theorem mem_filter {x : α} {p : α → Bool} {s : SortedSet α} :
    x ∈ s.filter p ↔ x ∈ s ∧ p x = true := List.mem_filter

@[simp] theorem contains_iff {x : α} {s : SortedSet α} : s.contains x = true ↔ x ∈ s := by
  simp only [contains, List.any_eq_true, decide_eq_true_eq, Ranked.ordering_eq, mem_def,
    exists_eq_right']

theorem isEmpty_iff {s : SortedSet α} : s.isEmpty = true ↔ ∀ x, ¬ x ∈ s := by
  rw [isEmpty, List.isEmpty_iff, List.eq_nil_iff_forall_not_mem]
  rfl

theorem list_ext : ∀ {l m : List α},
    l.Pairwise (fun x y => Ranked.before x y = true) →
    m.Pairwise (fun x y => Ranked.before x y = true) →
    (∀ x, x ∈ l ↔ x ∈ m) → l = m
  | [], [], _, _, _ => rfl
  | [], b :: _, _, _, h => absurd ((h b).mpr (List.mem_cons_self ..)) List.not_mem_nil
  | a :: _, [], _, _, h => absurd ((h a).mp (List.mem_cons_self ..)) List.not_mem_nil
  | a :: l, b :: m, hl, hm, h => by
    rw [List.pairwise_cons] at hl hm
    have hab : a = b := by
      rcases List.mem_cons.mp ((h a).mp (List.mem_cons_self ..)) with hab | ha
      · exact hab
      rcases List.mem_cons.mp ((h b).mpr (List.mem_cons_self ..)) with hab | hb
      · exact hab.symm
      have := Ranked.asymm (hm.1 a ha)
      rw [hl.1 b hb] at this
      exact Bool.noConfusion this
    subst hab
    refine congrArg _ (list_ext hl.2 hm.2 fun x => ⟨fun hx => ?_, fun hx => ?_⟩)
    · rcases List.mem_cons.mp ((h x).mp (List.mem_cons_of_mem _ hx)) with rfl | hx'
      · exact absurd rfl (Ranked.ne_of_before (hl.1 _ hx))
      · exact hx'
    · rcases List.mem_cons.mp ((h x).mpr (List.mem_cons_of_mem _ hx)) with rfl | hx'
      · exact absurd rfl (Ranked.ne_of_before (hm.1 _ hx))
      · exact hx'

/-- Sets with the same elements are equal. -/
theorem ext {s t : SortedSet α} (h : ∀ x, x ∈ s ↔ x ∈ t) : s = t := by
  obtain ⟨l, hl⟩ := s
  obtain ⟨m, hm⟩ := t
  obtain rfl := list_ext hl hm h
  rfl

end SortedSet

end SoundChange
