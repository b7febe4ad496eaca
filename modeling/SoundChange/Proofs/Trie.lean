import SoundChange.Trie
import Mathlib.Data.List.Infix
import Mathlib.Data.List.Nodup
import Mathlib.Tactic.Common

/-!
# The prefix tree of some segments

`Trie.Linked` is what adding a cell keeps: the links agree in both directions, and children are in
the order of their characters. Then a cell is known by its path (`Linked.path_injective`), and
characters lead to the cell whose path they are (`Linked.walk_eq_some_iff`).

`Cursor.Reaches` says what going on along some characters leaves behind, one step at a time
(`Cursor.reaches_advance`) and then a whole segment (`Cursor.reaches_foldl`). So adding a segment
adds its prefixes to the paths and itself to the members (`Trie.HoldsJust.insert`), and the trie of
a set is the prefix tree of its segments (`Trie.isPrefixTree_ofSet`).
-/

namespace SoundChange

theorem Ranked.not_before_trans {α : Type} [Ranked α] {a b c : α} (h : before a b = false)
    (h' : before b c = false) : before a c = false := by
  cases hac : before a c with
  | false => rfl
  | true =>
    cases hcb : before c b with
    | true => exact (h.symm.trans (Ranked.trans hac hcb)).symm
    | false =>
      obtain rfl := Ranked.total h' hcb
      exact hac.symm.trans h

namespace Trie

variable {t : Trie} {i j k : Nat} {c d : Char} {v w x y : Text}

/-! ## Cells that there are not -/

theorem lt_size_of_bind {α : Type} {f : Cell → Option α} {z : α}
    (h : t.cells[i]?.bind f = some z) : i < t.size := by
  obtain ⟨_, hx, -⟩ := Option.bind_eq_some_iff.mp h
  exact (Array.getElem?_eq_some_iff.mp hx).1

theorem lt_size_of_charAt (h : t.charAt i = some c) : i < t.size := lt_size_of_bind h

theorem lt_size_of_memberAt (h : t.memberAt i = some w) : i < t.size := lt_size_of_bind h

theorem parentOf_zero : t.parentOf 0 = none :=
  Option.eq_none_iff_forall_ne_some.mpr fun _ h => Nat.not_lt_zero _ (parentOf_lt h)

/-! ## Paths -/

theorem path_of_parentOf (h : t.parentOf i = some j) :
    t.path i = t.path j ++ (t.charAt i).toList := by
  rw [path]
  split <;> rename_i h'
  · cases h.symm.trans h'
    rfl
  · cases h.symm.trans h'

theorem path_of_not_parentOf (h : t.parentOf i = none) : t.path i = (t.charAt i).toList := by
  rw [path]
  split <;> rename_i h'
  · cases h.symm.trans h'
  · rfl

/-- The path of a cell depends on the cells up to it. -/
theorem path_congr {t' : Trie} {n : Nat} (hparent : ∀ i < n, t'.parentOf i = t.parentOf i)
    (hchar : ∀ i < n, t'.charAt i = t.charAt i) (hi : i < n) : t'.path i = t.path i := by
  induction i using Nat.strongRecOn with
  | ind i ih =>
    cases h : t.parentOf i with
    | none => rw [path_of_not_parentOf h, path_of_not_parentOf ((hparent i hi).trans h), hchar i hi]
    | some j =>
      have hj := parentOf_lt h
      rw [path_of_parentOf h, path_of_parentOf ((hparent i hi).trans h), hchar i hi,
        ih j hj (Nat.lt_trans hj hi)]

/-- Some cell has the path. -/
def Spells (t : Trie) (x : Text) : Prop := ∃ i < t.size, t.path i = x

/-! ## Links -/

/-- The first cell comes before the second by their characters. -/
def Before (t : Trie) (j k : Nat) : Prop :=
  ∃ c d, t.charAt j = some c ∧ t.charAt k = some d ∧ Ranked.before c d = true

theorem Before.trans (h : t.Before i j) (h' : t.Before j k) : t.Before i k := by
  obtain ⟨c, d, hc, hd, hcd⟩ := h
  obtain ⟨d', e, hd', he, hde⟩ := h'
  cases hd.symm.trans hd'
  exact ⟨c, e, hc, he, Ranked.trans hcd hde⟩

/-- The links agree in both directions, every cell but the root is linked to a parent, and children
are in the order of their characters. -/
structure Linked (t : Trie) : Prop where
  charAt_zero : t.charAt 0 = none
  exists_parent {i : Nat} :
    0 < i → i < t.size → ∃ j c, t.parentOf i = some j ∧ t.charAt i = some c
  mem_childrenOf {i j : Nat} : j ∈ t.childrenOf i ↔ t.parentOf j = some i
  ascending (i : Nat) : (t.childrenOf i).Pairwise t.Before

namespace Linked

variable (hl : t.Linked)
include hl

theorem path_zero : t.path 0 = [] := by
  rw [path_of_not_parentOf parentOf_zero, hl.charAt_zero, Option.toList_none]

theorem exists_charAt (h : j ∈ t.childrenOf i) : ∃ c, t.charAt j = some c := by
  obtain ⟨hlt, hsize⟩ := lt_of_mem_childrenOf h
  obtain ⟨_, c, -, hc⟩ := hl.exists_parent (Nat.zero_lt_of_lt hlt) hsize
  exact ⟨c, hc⟩

theorem path_child (h : j ∈ t.childrenOf i) (hc : t.charAt j = some c) :
    t.path j = t.path i ++ [c] := by
  rw [path_of_parentOf (hl.mem_childrenOf.mp h), hc, Option.toList_some]

/-- Every cell but the root is the child of one before it. -/
theorem exists_above (hpos : 0 < i) (hi : i < t.size) : ∃ j c, j < i ∧ i ∈ t.childrenOf j ∧
    t.charAt i = some c ∧ t.path i = t.path j ++ [c] := by
  obtain ⟨j, c, hj, hc⟩ := hl.exists_parent hpos hi
  have hchild := hl.mem_childrenOf.mpr hj
  exact ⟨j, c, parentOf_lt hj, hchild, hc, hl.path_child hchild hc⟩

/-- The children of a cell have different characters. -/
theorem nodup_map_charAt (i : Nat) : ((t.childrenOf i).map t.charAt).Nodup := by
  refine List.pairwise_map.mpr ((hl.ascending i).imp ?_)
  rintro j k ⟨c, d, hc, hd, hcd⟩ heq
  rw [hc, hd, Option.some.injEq] at heq
  exact Ranked.ne_of_before hcd heq

theorem child_eq_some_iff : t.child i c = some j ↔ j ∈ t.childrenOf i ∧ t.charAt j = some c := by
  constructor
  · intro h
    exact ⟨List.mem_of_find?_eq_some h, by simpa using List.find?_some h⟩
  · rintro ⟨hj, hc⟩
    cases h : t.child i c with
    | none => exact absurd hc (by simpa using List.find?_eq_none.mp h j hj)
    | some k =>
      have hk : t.charAt k = some c := by simpa using List.find?_some h
      rw [List.inj_on_of_nodup_map (hl.nodup_map_charAt i) (List.mem_of_find?_eq_some h) hj
        (hk.trans hc.symm)]

/-- Two cells with the same path are the same. -/
theorem path_injective (hi : i < t.size) (hj : j < t.size) (h : t.path i = t.path j) : i = j := by
  induction i using Nat.strongRecOn generalizing j with
  | ind i ih =>
    rcases Nat.eq_zero_or_pos i with rfl | hi₀ <;> rcases Nat.eq_zero_or_pos j with rfl | hj₀
    · rfl
    · obtain ⟨q, d, -, -, -, hq⟩ := hl.exists_above hj₀ hj
      rw [hl.path_zero, hq] at h
      exact absurd h.symm (List.concat_ne_nil _ _)
    · obtain ⟨p, c, -, -, -, hp⟩ := hl.exists_above hi₀ hi
      rw [hl.path_zero, hp] at h
      exact absurd h (List.concat_ne_nil _ _)
    · obtain ⟨p, c, hpi, hchild, hc, hp⟩ := hl.exists_above hi₀ hi
      obtain ⟨q, d, hqj, hchild', hd, hq⟩ := hl.exists_above hj₀ hj
      rw [hp, hq] at h
      obtain ⟨hpq, hcd⟩ := List.append_singleton_inj.mp h
      obtain rfl := ih p hpi (Nat.lt_trans hpi hi) (Nat.lt_trans hqj hj) hpq
      exact List.inj_on_of_nodup_map (hl.nodup_map_charAt p) hchild hchild'
        (by rw [hc, hd, hcd])

/-- The beginnings of a path are paths. -/
theorem exists_of_path_append (hi : i < t.size) (h : t.path i = x ++ y) :
    ∃ j < t.size, t.path j = x := by
  induction i using Nat.strongRecOn generalizing y with
  | ind i ih =>
    rcases List.eq_nil_or_concat y with rfl | ⟨z, d, rfl⟩
    · exact ⟨i, hi, by rw [h, List.append_nil]⟩
    · rcases Nat.eq_zero_or_pos i with rfl | hpos
      · rw [hl.path_zero] at h
        simp at h
      · obtain ⟨j, c, hji, -, -, hj⟩ := hl.exists_above hpos hi
        rw [hj, List.concat_eq_append, ← List.append_assoc] at h
        exact ih j hji (Nat.lt_trans hji hi) (List.append_singleton_inj.mp h).1

/-- The child to which a character leads is the cell with the longer path. -/
theorem child_eq_some_iff_path (hi : i < t.size) :
    t.child i c = some j ↔ j < t.size ∧ t.path j = t.path i ++ [c] := by
  rw [hl.child_eq_some_iff]
  constructor
  · rintro ⟨hchild, hc⟩
    exact ⟨(lt_of_mem_childrenOf hchild).2, hl.path_child hchild hc⟩
  · rintro ⟨hj, hpath⟩
    have hpos : 0 < j := by
      rcases Nat.eq_zero_or_pos j with rfl | hpos
      · rw [hl.path_zero] at hpath
        exact absurd hpath.symm (List.concat_ne_nil _ _)
      · exact hpos
    obtain ⟨k, d, hkj, hchild, hd, hk⟩ := hl.exists_above hpos hj
    obtain ⟨hparent, rfl⟩ := List.append_singleton_inj.mp (hk.symm.trans hpath)
    obtain rfl := hl.path_injective (Nat.lt_trans hkj hj) hi hparent
    exact ⟨hchild, hd⟩

/-- Some characters lead from a cell to the one whose path goes on with them. -/
theorem walk_eq_some_iff (hi : i < t.size) :
    t.walk i w = some j ↔ j < t.size ∧ t.path j = t.path i ++ w := by
  induction w generalizing i with
  | nil =>
    rw [walk, List.append_nil, Option.some.injEq]
    constructor
    · rintro rfl
      exact ⟨hi, rfl⟩
    · exact fun ⟨hj, hpath⟩ => hl.path_injective hi hj hpath.symm
  | cons c w ih =>
    rw [walk, Option.bind_eq_some_iff]
    simp only [hl.child_eq_some_iff_path hi]
    constructor
    · rintro ⟨k, ⟨hk, hpath⟩, hwalk⟩
      rw [ih hk, hpath, List.append_assoc] at hwalk
      exact hwalk
    · rintro ⟨hj, hpath⟩
      have hsplit : t.path j = (t.path i ++ [c]) ++ w := by rw [hpath, List.append_assoc]; rfl
      obtain ⟨k, hk, hpathk⟩ := hl.exists_of_path_append hj hsplit
      exact ⟨k, ⟨hk, hpathk⟩, (ih hk).mpr ⟨hj, by rw [hpathk, hsplit]⟩⟩

end Linked

/-! ## Adding a cell -/

/-- A list in some order stays so with a new element between those that are to come before it and
those that are to come behind it. -/
theorem pairwise_place {α : Type} {r : α → α → Prop} {p : α → Bool} {z : α} {l : List α}
    (htrans : ∀ {a b c}, r a b → r b c → r a c) (hl : l.Pairwise r)
    (hbefore : ∀ a ∈ l, p a = true → r a z) (hbehind : ∀ a ∈ l, p a = false → r z a) :
    (l.takeWhile p ++ z :: l.dropWhile p).Pairwise r := by
  induction l with
  | nil => exact List.pairwise_singleton r z
  | cons a l ih =>
    obtain ⟨ha, hl⟩ := List.pairwise_cons.mp hl
    cases hp : p a with
    | true =>
      rw [List.takeWhile_cons_of_pos hp, List.dropWhile_cons_of_pos hp, List.cons_append,
        List.pairwise_cons]
      refine ⟨fun b hb => ?_, ih hl (fun b hb => hbefore b (List.mem_cons_of_mem _ hb))
        fun b hb => hbehind b (List.mem_cons_of_mem _ hb)⟩
      rw [List.mem_append, List.mem_cons, or_left_comm, ← List.mem_append,
        List.takeWhile_append_dropWhile] at hb
      rcases hb with rfl | hb
      · exact hbefore a (List.mem_cons_self ..) hp
      · exact ha b hb
    | false =>
      have hza := hbehind a (List.mem_cons_self ..) hp
      rw [List.takeWhile_cons_of_neg (by simp [hp]), List.dropWhile_cons_of_neg (by simp [hp])]
      exact .cons (List.forall_mem_cons.mpr ⟨hza, fun b hb => htrans hza (ha b hb)⟩)
        (.cons ha hl)

section AddChild

variable (hi : i < t.size)

theorem cells_addChild : (t.addChild i hi c).cells = t.cellsWithChild i c := rfl

@[simp] theorem size_addChild : (t.addChild i hi c).size = t.size + 1 := by
  simp [size, cells_addChild, cellsWithChild]

/-- What does not depend on the children of a cell is there as before, and at the new cell. -/
theorem bind_cells_addChild {α : Type} {f : Cell → Option α}
    (hf : ∀ x children, f { x with children } = f x) : (t.addChild i hi c).cells[k]?.bind f =
      if k = t.size then f { char? := some c, parent := some i } else t.cells[k]?.bind f := by
  rw [cells_addChild, getElem?_cellsWithChild]
  split
  · rfl
  · split
    · cases t.cells[k]? with
      | none => rfl
      | some x => exact hf x _
    · rfl

theorem charAt_addChild :
    (t.addChild i hi c).charAt k = if k = t.size then some c else t.charAt k :=
  bind_cells_addChild hi fun _ _ => rfl

theorem parentOf_addChild :
    (t.addChild i hi c).parentOf k = if k = t.size then some i else t.parentOf k :=
  bind_cells_addChild hi fun _ _ => rfl

@[simp] theorem memberAt_addChild : (t.addChild i hi c).memberAt k = t.memberAt k := by
  have hmember : (t.addChild i hi c).memberAt k = if k = t.size then none else t.memberAt k :=
    bind_cells_addChild hi fun _ _ => rfl
  rw [hmember]
  split
  · rename_i hk
    exact (Option.eq_none_iff_forall_ne_some.mpr fun _ hw =>
      Nat.ne_of_lt (lt_size_of_memberAt hw) hk).symm
  · rfl

theorem childrenOf_addChild : (t.addChild i hi c).childrenOf k =
    if k = i then t.placeChild c t.size (t.childrenOf i) else t.childrenOf k := by
  simp only [childrenOf, cells_addChild, getElem?_cellsWithChild]
  by_cases hk : k = t.size
  · rw [if_pos hk, if_neg (by omega), Array.getElem?_eq_none (by rw [hk, size])]
    rfl
  · rw [if_neg hk]
    by_cases hik : i = k
    · subst hik
      rw [if_pos rfl, if_pos rfl, Array.getElem?_eq_getElem hi]
      rfl
    · rw [if_neg hik, if_neg (Ne.symm hik)]

theorem path_addChild (hk : k < t.size) : (t.addChild i hi c).path k = t.path k := by
  refine path_congr (n := t.size) (fun j hj => ?_) (fun j hj => ?_) hk
  · rw [parentOf_addChild, if_neg (Nat.ne_of_lt hj)]
  · rw [charAt_addChild, if_neg (Nat.ne_of_lt hj)]

theorem path_addChild_new : (t.addChild i hi c).path t.size = t.path i ++ [c] := by
  have hparent : (t.addChild i hi c).parentOf t.size = some i := by
    rw [parentOf_addChild, if_pos rfl]
  rw [path_of_parentOf hparent, path_addChild hi hi, charAt_addChild, if_pos rfl,
    Option.toList_some]

theorem before_addChild (h : t.Before j k) : (t.addChild i hi c).Before j k := by
  obtain ⟨d, e, hd, he, hde⟩ := h
  refine ⟨d, e, ?_, ?_, hde⟩
  · rw [charAt_addChild, if_neg (Nat.ne_of_lt (lt_size_of_charAt hd)), hd]
  · rw [charAt_addChild, if_neg (Nat.ne_of_lt (lt_size_of_charAt he)), he]

end AddChild

/-- The new child has its place in the order of characters. -/
theorem Linked.pairwise_placeChild (hl : t.Linked) (hi : i < t.size)
    (hnone : t.child i c = none) :
    (t.placeChild c t.size (t.childrenOf i)).Pairwise (t.addChild i hi c).Before := by
  have hnew : (t.addChild i hi c).charAt t.size = some c := by rw [charAt_addChild, if_pos rfl]
  have hold : ∀ j ∈ t.childrenOf i,
      ∃ d, d ≠ c ∧ t.charAt j = some d ∧ (t.addChild i hi c).charAt j = some d := by
    intro j hj
    obtain ⟨d, hd⟩ := hl.exists_charAt hj
    refine ⟨d, ?_, hd, ?_⟩
    · rintro rfl
      exact List.find?_eq_none.mp hnone j hj (decide_eq_true hd)
    · rw [charAt_addChild, if_neg (Nat.ne_of_lt (lt_size_of_charAt hd)), hd]
  refine pairwise_place Before.trans ((hl.ascending i).imp (before_addChild hi)) (fun j hj hp => ?_)
    fun j hj hp => ?_
  · obtain ⟨d, -, hd, hd'⟩ := hold j hj
    exact ⟨d, c, hd', hnew, by simpa [precedes, hd] using hp⟩
  · obtain ⟨d, hne, hd, hd'⟩ := hold j hj
    have hnot : Ranked.before d c = false := by simpa [precedes, hd] using hp
    refine ⟨c, d, hnew, hd', ?_⟩
    cases hcd : Ranked.before c d with
    | true => rfl
    | false => exact absurd (Ranked.total hnot hcd) hne

/-- Adding a child keeps the links, if there is none for the character. -/
theorem Linked.addChild (hl : t.Linked) (hi : i < t.size) (hnone : t.child i c = none) :
    (t.addChild i hi c).Linked where
  charAt_zero := by
    rw [charAt_addChild, if_neg (by omega), hl.charAt_zero]
  exists_parent {k} hpos hk := by
    rw [size_addChild] at hk
    rw [parentOf_addChild, charAt_addChild]
    split
    · exact ⟨i, c, rfl, rfl⟩
    · exact hl.exists_parent hpos (by omega)
  mem_childrenOf {k j} := by
    have hfresh : t.size ∉ t.childrenOf k := fun h =>
      Nat.lt_irrefl _ (lt_of_mem_childrenOf h).2
    rw [childrenOf_addChild, parentOf_addChild]
    by_cases hj : j = t.size
    · subst hj
      rw [if_pos rfl, Option.some.injEq]
      split
      · rename_i hk
        exact iff_of_true (mem_placeChild.mpr (.inl rfl)) hk.symm
      · rename_i hk
        exact iff_of_false hfresh (Ne.symm hk)
    · rw [if_neg hj]
      split
      · rename_i hk
        rw [mem_placeChild, or_iff_right hj, hl.mem_childrenOf, hk]
      · exact hl.mem_childrenOf
  ascending k := by
    rw [childrenOf_addChild]
    split
    · exact hl.pairwise_placeChild hi hnone
    · exact (hl.ascending k).imp (before_addChild hi)

/-! ## Marking a cell -/

section Mark

variable {segment : Text}

@[simp] theorem size_mark : (t.mark i segment).size = t.size := by simp [size, mark]

/-- What does not depend on the mark of a cell is there as before. -/
theorem bind_cells_mark {α : Type} {f : Cell → Option α}
    (hf : ∀ x member, f { x with member } = f x) :
    (t.mark i segment).cells[k]?.bind f = t.cells[k]?.bind f := by
  simp only [mark, Array.getElem?_modify]
  split
  · cases t.cells[k]? with
    | none => rfl
    | some x => exact hf x _
  · rfl

@[simp] theorem charAt_mark : (t.mark i segment).charAt k = t.charAt k :=
  bind_cells_mark fun _ _ => rfl

@[simp] theorem parentOf_mark : (t.mark i segment).parentOf k = t.parentOf k :=
  bind_cells_mark fun _ _ => rfl

@[simp] theorem childrenOf_mark : (t.mark i segment).childrenOf k = t.childrenOf k := by
  simp only [childrenOf, mark, Array.getElem?_modify]
  split <;> simp [Function.comp_def]

theorem memberAt_mark (hi : i < t.size) :
    (t.mark i segment).memberAt k = if k = i then some segment else t.memberAt k := by
  simp only [memberAt, mark, Array.getElem?_modify]
  by_cases hk : i = k
  · subst hk
    rw [if_pos rfl, if_pos rfl, Array.getElem?_eq_getElem hi]
    rfl
  · rw [if_neg hk, if_neg (Ne.symm hk)]

theorem path_mark (hk : k < t.size) : (t.mark i segment).path k = t.path k :=
  path_congr (fun _ _ => parentOf_mark) (fun _ _ => charAt_mark) hk

theorem spells_mark : (t.mark i segment).Spells x ↔ t.Spells x := by
  rw [Spells, Spells, size_mark]
  exact exists_congr fun k => and_congr_right fun hk => by rw [path_mark hk]

theorem Linked.mark (hl : t.Linked) : (t.mark i segment).Linked where
  charAt_zero := by rw [charAt_mark, hl.charAt_zero]
  exists_parent hpos hi := by
    simp only [parentOf_mark, charAt_mark]
    exact hl.exists_parent hpos (by rwa [size_mark] at hi)
  mem_childrenOf := by simp only [childrenOf_mark, parentOf_mark, hl.mem_childrenOf, implies_true]
  ascending k := by
    rw [childrenOf_mark]
    refine (hl.ascending k).imp fun h => ?_
    simpa only [Before, charAt_mark] using h

end Mark

/-! ## Adding a segment -/

namespace Cursor

variable {p q : Cursor}

/-- What going on along some characters leaves behind: cells are added for the paths on the way, and
nothing else is changed. -/
structure Reaches (p : Cursor) (w : Text) (q : Cursor) : Prop where
  linked : q.trie.Linked
  size_le : p.trie.size ≤ q.trie.size
  path_eq : ∀ k < p.trie.size, q.trie.path k = p.trie.path k
  memberAt_eq (k : Nat) : q.trie.memberAt k = p.trie.memberAt k
  path_place : q.trie.path q.place = p.trie.path p.place ++ w
  spells_iff (x : Text) : q.trie.Spells x ↔
    p.trie.Spells x ∨ ∃ y, y <+: w ∧ x = p.trie.path p.place ++ y

theorem reaches_self (hl : p.trie.Linked) : p.Reaches [] p where
  linked := hl
  size_le := Nat.le_refl _
  path_eq _ _ := rfl
  memberAt_eq _ := rfl
  path_place := (List.append_nil _).symm
  spells_iff x := by
    rw [iff_self_or]
    rintro ⟨y, hy, rfl⟩
    exact ⟨p.place, p.lt_size, by rw [List.prefix_nil.mp hy, List.append_nil]⟩

/-- A step to a child that is there changes nothing. -/
theorem reaches_child (hl : p.trie.Linked) (h : p.trie.child p.place c = some j)
    (hj : j < p.trie.size) : p.Reaches [c] ⟨p.trie, j, hj⟩ := by
  have hpath := ((hl.child_eq_some_iff_path p.lt_size).mp h).2
  refine ⟨hl, Nat.le_refl _, fun _ _ => rfl, fun _ => rfl, hpath, fun x => ?_⟩
  rw [iff_self_or]
  rintro ⟨y, hy, rfl⟩
  rcases List.prefix_cons_iff.mp hy with rfl | ⟨z, rfl, hz⟩
  · exact ⟨p.place, p.lt_size, (List.append_nil _).symm⟩
  · obtain rfl := List.prefix_nil.mp hz
    exact ⟨j, hj, hpath⟩

/-- A step to a new child adds its path. -/
theorem reaches_addChild (hl : p.trie.Linked) (h : p.trie.child p.place c = none)
    (hsize : p.trie.size < (p.trie.addChild p.place p.lt_size c).size) :
    p.Reaches [c] ⟨p.trie.addChild p.place p.lt_size c, p.trie.size, hsize⟩ := by
  have hold {k : Nat} (hk : k < p.trie.size) :
      (p.trie.addChild p.place p.lt_size c).path k = p.trie.path k := path_addChild p.lt_size hk
  have hnew : (p.trie.addChild p.place p.lt_size c).path p.trie.size =
      p.trie.path p.place ++ [c] := path_addChild_new p.lt_size
  constructor
  case linked => exact hl.addChild p.lt_size h
  case size_le => exact Nat.le_of_lt hsize
  case path_eq => exact fun k hk => hold hk
  case memberAt_eq =>
    intro k
    exact memberAt_addChild p.lt_size
  case path_place => exact hnew
  case spells_iff =>
    refine fun x => ⟨?_, ?_⟩
    · rintro ⟨k, hk, rfl⟩
      rw [size_addChild] at hk
      rcases Nat.lt_succ_iff_lt_or_eq.mp hk with hk | rfl
      · exact .inl ⟨k, hk, (hold hk).symm⟩
      · exact .inr ⟨[c], List.prefix_rfl, hnew⟩
    · rintro (⟨k, hk, rfl⟩ | ⟨y, hy, rfl⟩)
      · exact ⟨k, Nat.lt_trans hk hsize, hold hk⟩
      · rcases List.prefix_cons_iff.mp hy with rfl | ⟨z, rfl, hz⟩
        · rw [List.append_nil]
          exact ⟨p.place, Nat.lt_trans p.lt_size hsize, hold p.lt_size⟩
        · obtain rfl := List.prefix_nil.mp hz
          exact ⟨p.trie.size, hsize, hnew⟩

/-- One step, to a child that is there or to a new one. -/
theorem reaches_advance (hl : p.trie.Linked) (c : Char) : p.Reaches [c] (p.advance c) := by
  rw [advance]
  split
  · rename_i j h
    exact reaches_child hl h _
  · rename_i h
    exact reaches_addChild hl h _

/-- The path of a cell that was added is a new one. -/
theorem Reaches.not_spells (h : p.Reaches w q) (hi : i < q.trie.size) (hnew : ¬ i < p.trie.size) :
    ¬ p.trie.Spells (q.trie.path i) := by
  rintro ⟨k, hk, hpath⟩
  have hk' : k < q.trie.size := Nat.lt_of_lt_of_le hk h.size_le
  have heq : k = i := h.linked.path_injective hk' hi ((h.path_eq k hk).trans hpath)
  exact hnew (heq ▸ hk)

/-- First one character, then the others. -/
theorem Reaches.cons {p₁ : Cursor} (h : p.Reaches [c] p₁) (h' : p₁.Reaches w q) :
    p.Reaches (c :: w) q where
  linked := h'.linked
  size_le := h.size_le.trans h'.size_le
  path_eq k hk := (h'.path_eq k (Nat.lt_of_lt_of_le hk h.size_le)).trans (h.path_eq k hk)
  memberAt_eq k := (h'.memberAt_eq k).trans (h.memberAt_eq k)
  path_place := by
    rw [h'.path_place, h.path_place, List.append_assoc]
    rfl
  spells_iff x := by
    rw [h'.spells_iff, h.spells_iff, or_assoc, h.path_place]
    refine or_congr Iff.rfl ⟨?_, ?_⟩
    · rintro (⟨y, hy, rfl⟩ | ⟨y, hy, rfl⟩)
      · exact ⟨y, hy.trans (by simp), rfl⟩
      · exact ⟨c :: y, List.cons_prefix_cons.mpr ⟨rfl, hy⟩, by simp⟩
    · rintro ⟨y, hy, rfl⟩
      rcases List.prefix_cons_iff.mp hy with rfl | ⟨z, rfl, hz⟩
      · exact .inl ⟨[], List.nil_prefix, rfl⟩
      · exact .inr ⟨z, hz, by simp⟩

theorem reaches_foldl (hl : p.trie.Linked) (w : Text) :
    p.Reaches w (w.foldl advance p) := by
  induction w generalizing p with
  | nil => exact reaches_self hl
  | cons c w ih =>
    have hstep := reaches_advance hl c
    exact hstep.cons (ih hstep.linked)

end Cursor

/-! ## All segments -/

/-- The trie holds just the segments that `held` says: its paths are the beginnings of these, and a
cell is marked where its path is one of them. -/
structure HoldsJust (t : Trie) (held : Text → Prop) : Prop where
  linked : t.Linked
  spells_iff {x : Text} : t.Spells x ↔ x = [] ∨ ∃ w, held w ∧ x <+: w
  memberAt_iff {i : Nat} {w : Text} :
    i < t.size → (t.memberAt i = some w ↔ held w ∧ w = t.path i)

theorem linked_new : Linked new where
  charAt_zero := rfl
  exists_parent hpos hi := by
    have hone : new.size = 1 := rfl
    omega
  mem_childrenOf {i j} := by
    have hparent : new.parentOf j = none := by cases j <;> rfl
    have hchildren : new.childrenOf i = [] := by cases i <;> rfl
    simp [hparent, hchildren]
  ascending i := by
    have hchildren : new.childrenOf i = [] := by cases i <;> rfl
    rw [hchildren]
    exact .nil

theorem holdsJust_new : new.HoldsJust fun _ => False where
  linked := linked_new
  spells_iff {x} := by
    have hroot : new.path 0 = [] := linked_new.path_zero
    simp only [false_and, exists_false, or_false]
    constructor
    · rintro ⟨i, hi, rfl⟩
      obtain rfl : i = 0 := Nat.lt_one_iff.mp hi
      exact hroot
    · rintro rfl
      exact ⟨0, new.pos, hroot⟩
  memberAt_iff {i w} hi := by
    obtain rfl : i = 0 := Nat.lt_one_iff.mp hi
    have hnone : new.memberAt 0 = none := rfl
    simp [hnone]

/-- Adding a segment adds it to what is held, and its beginnings to the paths. -/
theorem HoldsJust.insert {held : Text → Prop} (h : t.HoldsJust held) (segment : Text) :
    (t.insert segment).HoldsJust fun w => w = segment ∨ held w := by
  have hreach := Cursor.reaches_foldl (p := ⟨t, 0, t.pos⟩) h.linked segment
  have hroot : t.path 0 = [] := h.linked.path_zero
  generalize hwalk : segment.foldl Cursor.advance ⟨t, 0, t.pos⟩ = last at hreach
  have hinsert : t.insert segment = last.trie.mark last.place segment := by
    rw [Trie.insert, hwalk]
  have hplace : last.trie.path last.place = segment := by
    rw [hreach.path_place, hroot, List.nil_append]
  rw [hinsert]
  refine ⟨hreach.linked.mark, fun {x} => ?_, fun {i w} hi => ?_⟩
  · rw [spells_mark, hreach.spells_iff, h.spells_iff, hroot]
    simp only [List.nil_append, exists_eq_right', or_and_right, exists_or, exists_eq_left]
    rw [or_assoc, or_comm (a := ∃ w, held w ∧ x <+: w)]
  · rw [size_mark] at hi
    rw [memberAt_mark last.lt_size, path_mark hi, hreach.memberAt_eq]
    by_cases hlast : i = last.place
    · subst hlast
      rw [if_pos rfl, hplace, Option.some.injEq]
      constructor
      · rintro rfl
        exact ⟨.inl rfl, rfl⟩
      · exact fun hw => hw.2.symm
    · rw [if_neg hlast]
      have hne : last.trie.path i ≠ segment := fun heq =>
        hlast (hreach.linked.path_injective hi last.lt_size (heq.trans hplace.symm))
      by_cases hold : i < t.size
      · rw [hreach.path_eq i hold] at hne ⊢
        rw [h.memberAt_iff hold]
        refine and_congr_left fun hw => ?_
        rw [or_iff_right (hw ▸ hne)]
      · -- a new cell is not marked, and its path is not that of a segment held before
        have hnone : t.memberAt i = none := Option.eq_none_iff_forall_ne_some.mpr fun v hv =>
          hold (lt_size_of_memberAt hv)
        rw [hnone]
        refine iff_of_false nofun ?_
        rintro ⟨rfl | hheld, hw⟩
        · exact hne hw.symm
        · exact hreach.not_spells hi hold
            (h.spells_iff.mpr (.inr ⟨w, hheld, hw ▸ List.prefix_rfl⟩))

theorem HoldsJust.foldl_insert {held : Text → Prop} (h : t.HoldsJust held) (l : List Text) :
    (l.foldl Trie.insert t).HoldsJust fun w => w ∈ l ∨ held w := by
  induction l generalizing t held with
  | nil => simpa using h
  | cons segment l ih =>
    have hrest := ih (h.insert segment)
    have hheld : (fun w => w ∈ segment :: l ∨ held w) = fun w => w ∈ l ∨ w = segment ∨ held w := by
      funext w
      rw [List.mem_cons, or_assoc, or_left_comm]
    rwa [hheld]

/-- The trie of a set holds its segments but for the empty one. -/
theorem holdsJust_ofSet (members : SortedSet Text) :
    (ofSet members).HoldsJust fun w => w ∈ members ∧ w ≠ [] := by
  have h := holdsJust_new.foldl_insert (members.toList.filter fun w => !w.isEmpty)
  have hheld : (fun w => w ∈ members ∧ w ≠ []) =
      fun w => w ∈ members.toList.filter (fun w => !w.isEmpty) ∨ False := by
    funext w
    simp [SortedSet.mem_def]
  rwa [hheld]

/-- The trie is the prefix tree of the segments that are held. -/
structure IsPrefixTree (t : Trie) (held : Text → Prop) : Prop where
  root : t.parentOf 0 = none ∧ t.charAt 0 = none
  path_injective {i j : Nat} : i < t.size → j < t.size → t.path i = t.path j → i = j
  paths {x : Text} : (∃ i < t.size, t.path i = x) ↔ x = [] ∨ ∃ w, held w ∧ x <+: w
  member_iff {i : Nat} {w : Text} :
    i < t.size → (t.memberAt i = some w ↔ held (t.path i) ∧ w = t.path i)
  /-- The parent comes before, lists the cell once, and its path is one character shorter. -/
  above {i : Nat} : 0 < i → i < t.size → ∃ j c, t.parentOf i = some j ∧ j < i ∧
    (t.childrenOf j).count i = 1 ∧ t.charAt i = some c ∧ t.path i = t.path j ++ [c]
  /-- The children are in the order of their characters, and each has the cell as its parent. -/
  below (i : Nat) : (t.childrenOf i).Pairwise t.Before ∧
    ∀ j ∈ t.childrenOf i, j < t.size ∧ t.parentOf j = some i
  leaf {i : Nat} : i < t.size → t.childrenOf i = [] → t.size = 1 ∨ ∃ w, t.memberAt i = some w

/-- A cell without children ends a segment, unless it is the root alone. -/
theorem HoldsJust.leaf {held : Text → Prop} (h : t.HoldsJust held) (hi : i < t.size)
    (hleaf : t.childrenOf i = []) : t.size = 1 ∨ ∃ w, t.memberAt i = some w := by
  rcases h.spells_iff.mp ⟨i, hi, rfl⟩ with hroot | ⟨w, hheld, y, hy⟩
  · obtain rfl := h.linked.path_injective hi t.pos (hroot.trans h.linked.path_zero.symm)
    refine .inl (Nat.le_antisymm (Nat.le_of_not_lt fun hlt => ?_) t.pos)
    obtain ⟨j, c, hj, hchild, -⟩ := h.linked.exists_above Nat.one_pos hlt
    obtain rfl := Nat.lt_one_iff.mp hj
    rw [hleaf] at hchild
    cases hchild
  · cases y with
    | nil =>
      rw [List.append_nil] at hy
      exact .inr ⟨w, (h.memberAt_iff hi).mpr ⟨hheld, hy.symm⟩⟩
    | cons c z =>
      have hlonger : t.path i ++ [c] <+: w := ⟨z, by rw [List.append_assoc]; exact hy⟩
      obtain ⟨k, hk⟩ := h.spells_iff.mpr (.inr ⟨w, hheld, hlonger⟩)
      have hchild := (h.linked.child_eq_some_iff_path hi).mpr hk
      rw [h.linked.child_eq_some_iff, hleaf] at hchild
      cases hchild.1

theorem HoldsJust.isPrefixTree {held : Text → Prop} (h : t.HoldsJust held) :
    t.IsPrefixTree held where
  root := ⟨parentOf_zero, h.linked.charAt_zero⟩
  path_injective := h.linked.path_injective
  paths := h.spells_iff
  member_iff hi := by
    rw [h.memberAt_iff hi]
    exact and_congr_left fun hw => by rw [hw]
  above hpos hi := by
    obtain ⟨j, c, hj, hchild, hc, hpath⟩ := h.linked.exists_above hpos hi
    exact ⟨j, c, h.linked.mem_childrenOf.mp hchild, hj,
      List.count_eq_one_of_mem (h.linked.nodup_map_charAt j).of_map hchild, hc, hpath⟩
  below i := ⟨h.linked.ascending i, fun _ hj =>
    ⟨(lt_of_mem_childrenOf hj).2, h.linked.mem_childrenOf.mp hj⟩⟩
  leaf := h.leaf

/-! ## Looking segments up and listing them -/

theorem HoldsJust.contains_iff {held : Text → Prop} (h : t.HoldsJust held) :
    t.contains w = true ↔ held w ∧ w ≠ [] := by
  have hwalk {i : Nat} : t.walk 0 w = some i ↔ i < t.size ∧ t.path i = w := by
    rw [h.linked.walk_eq_some_iff t.pos, h.linked.path_zero, List.nil_append]
  have hroot {i : Nat} (hi : i < t.size) : i = 0 ↔ t.path i = [] := by
    constructor
    · rintro rfl
      exact h.linked.path_zero
    · exact fun hpath => h.linked.path_injective hi t.pos (hpath.trans h.linked.path_zero.symm)
  rw [contains, Option.any_eq_true]
  simp only [hwalk, Bool.and_eq_true, decide_eq_true_eq, Option.isSome_iff_exists]
  constructor
  · rintro ⟨i, ⟨hi, rfl⟩, hne, v, hv⟩
    obtain ⟨hheld, rfl⟩ := (h.memberAt_iff hi).mp hv
    exact ⟨hheld, mt (hroot hi).mpr hne⟩
  · rintro ⟨hheld, hne⟩
    obtain ⟨i, hi, rfl⟩ := h.spells_iff.mpr (.inr ⟨w, hheld, List.prefix_rfl⟩)
    exact ⟨i, ⟨hi, rfl⟩, mt (hroot hi).mp hne, _, (h.memberAt_iff hi).mpr ⟨hheld, rfl⟩⟩

theorem memberAt_of_lt (hi : i < t.cells.toList.length) :
    t.memberAt i = (t.cells.toList[i]).member := by
  rw [memberAt, ← Array.getElem?_toList, List.getElem?_eq_getElem hi, Option.bind_some]

theorem HoldsJust.mem_members {held : Text → Prop} (h : t.HoldsJust held) :
    w ∈ t.members ↔ held w := by
  rw [members, List.mem_mergeSort, List.mem_filterMap]
  constructor
  · rintro ⟨x, hx, hw⟩
    obtain ⟨i, hi, rfl⟩ := List.mem_iff_getElem.mp hx
    rw [← memberAt_of_lt] at hw
    exact ((h.memberAt_iff hi).mp hw).1
  · intro hheld
    obtain ⟨i, hi, rfl⟩ := h.spells_iff.mpr (.inr ⟨w, hheld, List.prefix_rfl⟩)
    have hi' : i < t.cells.toList.length := hi
    exact ⟨_, List.getElem_mem hi', memberAt_of_lt hi' ▸ (h.memberAt_iff hi).mpr ⟨hheld, rfl⟩⟩

/-- No segment is marked at two cells, so none is listed twice. -/
theorem HoldsJust.nodup_members {held : Text → Prop} (h : t.HoldsJust held) : t.members.Nodup := by
  rw [members, (List.mergeSort_perm _ _).nodup_iff]
  refine List.pairwise_filterMap.mpr (List.pairwise_iff_getElem.mpr ?_)
  rintro i j hi hj hij v hv _ hw rfl
  rw [← memberAt_of_lt] at hv hw
  have hpath := ((h.memberAt_iff hi).mp hv).2.symm.trans ((h.memberAt_iff hj).mp hw).2
  exact Nat.ne_of_lt hij (h.linked.path_injective hi hj hpath)

theorem HoldsJust.pairwise_members {held : Text → Prop} (h : t.HoldsJust held) :
    t.members.Pairwise fun v w => Ranked.before v w = true := by
  have hsorted : t.members.Pairwise fun v w => (!Ranked.before w v) = true := by
    refine List.pairwise_mergeSort (fun u v w huv hvw => ?_) (fun v w => ?_) _
    · rw [Bool.not_eq_true'] at huv hvw ⊢
      exact Ranked.not_before_trans hvw huv
    · cases hvw : Ranked.before v w with
      | true => simp [Ranked.asymm hvw]
      | false => simp
  refine (hsorted.and h.nodup_members).imp fun {v w} ⟨hle, hne⟩ => ?_
  cases hvw : Ranked.before v w with
  | true => rfl
  | false => exact absurd (Ranked.total hvw (by simpa using hle)) hne

/-- The trie of some segments is the prefix tree of those that are not empty. Looking a segment up
finds these and no others, and they are listed in order, each once. -/
theorem isPrefixTree_ofSet (words : List Text) :
    let t := ofSet (.ofList words)
    t.IsPrefixTree (fun w => w ∈ words ∧ w ≠ []) ∧
    (∀ w, t.contains w = true ↔ w ∈ words ∧ w ≠ []) ∧
    t.members.Pairwise (fun v w => Ranked.before v w = true) ∧
    ∀ w, w ∈ t.members ↔ w ∈ words ∧ w ≠ [] := by
  intro t
  have h : t.HoldsJust fun w => w ∈ words ∧ w ≠ [] := by
    simpa only [SortedSet.mem_ofList] using holdsJust_ofSet (.ofList words)
  refine ⟨h.isPrefixTree, fun w => ?_, h.pairwise_members, fun w => h.mem_members⟩
  rw [h.contains_iff, and_assoc, and_self]

/-- One segment begins another, and a third one is beside them. -/
example : (ofSet (.ofList [['t', 's'], ['s'], ['t'], []])).cells.toList =
    [⟨none, none, [1, 2], none⟩, ⟨some 's', some 0, [], some ['s']⟩,
      ⟨some 't', some 0, [3], some ['t']⟩, ⟨some 's', some 2, [], some ['t', 's']⟩] := by
  decide +kernel

end Trie

end SoundChange
