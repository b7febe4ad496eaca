import SoundChange.Proofs.Automaton.Exploration
import SoundChange.Proofs.Automaton.Registered
import Mathlib.Data.List.Induction

/-!
# What some states offer in their slots

The states of an automaton carry transforms in slots: on the edges of a symbol, or as their
defaults. Some states offer in a slot what each of their edges carries there, in order
(`Automaton.mem_offered`), and one of these is chosen. The choice fails just where two different
transforms are offered of which one is not known, so it succeeds for comparable states
(`Automaton.chooseAll_isSome_iff`), and where it succeeds a row takes over what is chosen.
-/

namespace SoundChange

/-- Where a state carries a transform. -/
inductive Slot where
  /-- On its edges with a symbol. -/
  | symbol (c : Symbol)
  /-- As its default. -/
  | default
  deriving DecidableEq, Repr

section Lookup

variable {α β γ : Type} [DecidableEq α] {k : α}

theorem lookup_eq_none {l : List (α × β)} (h : k ∉ l.map Prod.fst) : l.lookup k = none := by
  rw [List.lookup_eq_none_iff]
  intro p hp
  refine bne_iff_ne.mpr fun hk => h ?_
  rw [hk]
  exact List.mem_map_of_mem hp

theorem lookup_filterMap {l : List (α × β)} (hl : (l.map Prod.fst).Nodup) (g : β → Option γ) :
    (l.filterMap fun p => (g p.2).map (p.1, ·)).lookup k = (l.lookup k).bind g := by
  induction l with
  | nil => rfl
  | cons p l ih =>
    obtain ⟨x, v⟩ := p
    rw [List.map_cons, List.nodup_cons] at hl
    by_cases hx : k = x
    · subst hx
      cases hv : g v <;> simp [hv, ih hl.2, lookup_eq_none hl.1]
    · cases hv : g v <;> simp [List.lookup_cons, hv, ih hl.2, beq_false_of_ne hx]

theorem lookup_toList [Ranked α] (m : RankedMap α β) : m.toList.lookup k = m[k]? := by
  refine Option.ext fun v => ?_
  rw [← Std.TreeMap.mem_toList_iff_getElem?_eq_some]
  exact ⟨mem_of_lookup, lookup_of_mem (nodup_keys_toList m)⟩

end Lookup

theorem mapM_eq_some_iff {α β : Type} {f : α → Option β} {l : List α} {l' : List β} :
    l.mapM f = some l' ↔ l.map f = l'.map some := by
  induction l generalizing l' with
  | nil =>
    rw [List.mapM_nil, List.map_nil, eq_comm (a := []), List.map_eq_nil_iff]
    exact Option.some_inj.trans eq_comm
  | cons x l ih =>
    rw [List.mapM_cons, Option.bind_eq_bind, Option.bind_eq_some_iff]
    simp only [Option.bind_eq_bind, Option.bind_eq_some_iff, ih]
    cases l' with
    | nil => simp
    | cons y l' => simp

theorem mapM_isSome_iff {α β : Type} {f : α → Option β} {l : List α} :
    (l.mapM f).isSome = true ↔ ∀ x ∈ l, (f x).isSome = true := by
  induction l with
  | nil => simp
  | cons x l ih =>
    rw [List.mapM_cons, List.forall_mem_cons, ← ih]
    cases f x with
    | none => simp
    | some y => cases l.mapM f <;> simp

namespace Automaton

variable {a : Automaton} {s : StateId} {slot : Slot} {members : List StateId}
  {ns : List TransformId} {n w : TransformId} {k : Nat}

/-- The transform that a state carries in a slot. What is attached to a symbol without an edge is
not carried. -/
def carried? (a : Automaton) (s : StateId) : Slot → Option TransformId
  | .symbol c => if (a.edgesOf s).any (·.symbol = c) then a.attached? s c else none
  | .default => a.default? s

/-! ## What the members offer -/

/-- What the edges of a state offer in a slot, each edge by itself. -/
def offersOf (a : Automaton) (s : StateId) : Slot → List TransformId
  | .symbol c => (a.edgesOf s).filterMap fun e => if e.symbol = c then a.attached? s c else none
  | .default => (a.default? s).toList

/-- What some states offer in a slot. -/
def offered (a : Automaton) (members : List StateId) : Slot → List TransformId
  | .symbol c => (a.offers members)[c]?.getD []
  | .default => members.filterMap a.default?

theorem offered_eq_flatMap : a.offered members slot = members.flatMap (a.offersOf · slot) := by
  cases slot with
  | default =>
    simp only [offered, offersOf]
    exact List.filterMap_eq_flatMap_toList ..
  | symbol c =>
    rw [offered, offers, RankedMap.getD_group, List.filterMap_flatMap]
    refine List.flatMap_congr fun s _ => ?_
    rw [offersOf, List.filterMap_filterMap]
    refine List.filterMap_congr fun e _ => ?_
    by_cases he : e.symbol = c
    · subst he
      cases a.attached? s e.symbol <;> simp
    · cases a.attached? s e.symbol <;> simp [he]

theorem mem_offersOf : n ∈ a.offersOf s slot ↔ a.carried? s slot = some n := by
  cases slot with
  | default => simp [offersOf, carried?]
  | symbol c =>
    simp only [offersOf, carried?, List.mem_filterMap, List.any_eq_true, decide_eq_true_eq,
      Option.ite_none_right_eq_some]
    constructor
    · rintro ⟨e, he, hc, hn⟩
      exact ⟨⟨e, he, hc⟩, hn⟩
    · rintro ⟨⟨e, he, hc⟩, hn⟩
      exact ⟨e, he, hc, hn⟩

theorem mem_offered :
    n ∈ a.offered members slot ↔ ∃ m ∈ members, a.carried? m slot = some n := by
  simp only [offered_eq_flatMap, List.mem_flatMap, mem_offersOf]

/-- The slots in which some states can offer transforms. -/
def slots (a : Automaton) (members : List StateId) : List Slot :=
  .default :: (a.offers members).toList.map fun p => .symbol p.1

/-! ## When there is a choice -/

/-- The automaton has the transform. -/
def Knows (a : Automaton) (n : TransformId) : Prop := ∃ u, a.transform? n = some u

/-- A transform that one of the states carries in a slot where another one carries a different
transform is known. -/
def Comparable (a : Automaton) (members : List StateId) : Prop :=
  ∀ slot, ∀ s ∈ members, ∀ s' ∈ members, ∀ n n', a.carried? s slot = some n →
    a.carried? s' slot = some n' → n ≠ n' → a.Knows n

theorem Registered.knows (hreg : a.Registered) (hn : a.carried? s slot = some n) : a.Knows n := by
  cases slot with
  | default => exact ⟨_, Array.getElem?_eq_getElem (hreg.lt_of_default hn)⟩
  | symbol c =>
    simp only [carried?, Option.ite_none_right_eq_some] at hn
    exact hreg.exists_transform hn.2

theorem Registered.comparable (hreg : a.Registered) (members : List StateId) :
    a.Comparable members := fun _ _ _ _ _ _ _ hn _ _ => hreg.knows hn

theorem choose_concat (l : List TransformId) :
    a.choose (l ++ [n]) = (a.choose l).bind fun chosen => a.takeUp chosen n := by
  simp [choose, List.foldlM_append, Option.bind_eq_bind]

theorem takeUp_isSome_iff :
    (a.takeUp (some w, k) n).isSome = true ↔ w = n ∨ a.Knows w ∧ a.Knows n := by
  by_cases hw : w = n
  · simp [takeUp, hw]
  · simp only [takeUp, hw, false_or, Knows]
    cases a.transform? w with
    | none => simp
    | some t =>
      cases a.transform? n with
      | none => simp
      | some u => cases t.isNull <;> simp [apply_ite Option.isSome]

/-- A transform taken up is offered, or was chosen before. -/
theorem takeUp_fst {chosen : Option TransformId × Nat} (h : a.takeUp (some w, k) n = some chosen) :
    chosen.1 = some w ∨ chosen.1 = some n := by
  unfold takeUp at h
  grind

theorem mem_of_choose {chosen : Option TransformId × Nat} (h : a.choose ns = some chosen) :
    chosen.1 = none ∧ ns = [] ∨ ∃ w ∈ ns, chosen.1 = some w := by
  induction ns using List.reverseRecOn generalizing chosen with
  | nil =>
    cases h
    exact .inl ⟨rfl, rfl⟩
  | append_singleton l n ih =>
    rw [choose_concat, Option.bind_eq_some_iff] at h
    obtain ⟨⟨old, k⟩, hl, hn⟩ := h
    refine .inr ?_
    rcases ih hl with ⟨rfl, -⟩ | ⟨w, hw, rfl⟩
    · cases hn
      exact ⟨n, by simp, rfl⟩
    · rcases takeUp_fst hn with h | h
      · exact ⟨w, by simp [hw], h⟩
      · exact ⟨n, by simp, h⟩

/-- One more transform, compared with any of the others. -/
theorem knows_concat_iff {l : List TransformId} (hw : w ∈ l)
    (hl : ∀ m ∈ l, ∀ m' ∈ l, m ≠ m' → a.Knows m) :
    (∀ m ∈ l ++ [n], ∀ m' ∈ l ++ [n], m ≠ m' → a.Knows m) ↔ w = n ∨ a.Knows w ∧ a.Knows n := by
  constructor
  · intro h
    by_cases hwn : w = n
    · exact .inl hwn
    · exact .inr ⟨h w (by simp [hw]) n (by simp) hwn, h n (by simp) w (by simp [hw]) (Ne.symm hwn)⟩
  · intro hknown m hm m' hm' hne
    rw [List.mem_append, List.mem_singleton] at hm hm'
    rcases hknown with rfl | ⟨hwknown, hnknown⟩
    · exact hl m (hm.elim id (· ▸ hw)) m' (hm'.elim id (· ▸ hw)) hne
    · rcases hm with hm | rfl
      · by_cases hmw : m = w
        · exact hmw ▸ hwknown
        · exact hl m hm w hw hmw
      · exact hnknown

/-- There is a choice just if all transforms are known, unless they are the same. -/
theorem choose_isSome_iff :
    (a.choose ns).isSome = true ↔ ∀ n ∈ ns, ∀ n' ∈ ns, n ≠ n' → a.Knows n := by
  induction ns using List.reverseRecOn with
  | nil => simp [choose]
  | append_singleton l n ih =>
    rw [choose_concat]
    cases hl : a.choose l with
    | none =>
      rw [hl] at ih
      simp only [Option.isSome_none, Bool.false_eq_true, false_iff] at ih
      refine iff_of_false (by simp) fun h => ih fun m hm m' hm' => ?_
      exact h m (List.mem_append_left _ hm) m' (List.mem_append_left _ hm')
    | some chosen =>
      rw [hl] at ih
      obtain ⟨old, k⟩ := chosen
      rw [Option.bind_some]
      rcases mem_of_choose hl with ⟨rfl, rfl⟩ | ⟨w, hw, rfl⟩
      · simp [takeUp]
      · rw [takeUp_isSome_iff, knows_concat_iff hw (ih.mp rfl)]

theorem chooseAll_eq_some_iff {chosen : List (Symbol × Option TransformId × Nat)}
    {default : Option TransformId × Nat} : a.chooseAll members = some (chosen, default) ↔
      ((a.offers members).toList.map fun p => (a.choose p.2).map (p.1, ·)) = chosen.map some ∧
        a.choose (a.offered members .default) = some default := by
  obtain ⟨w, k⟩ := default
  rw [chooseAll, ← mapM_eq_some_iff, offered]
  simp [Option.bind_eq_some_iff, and_comm]

theorem chooseAll_isSome_iff_choose : (a.chooseAll members).isSome = true ↔
    ∀ slot, (a.choose (a.offered members slot)).isSome = true := by
  have hsplit : (a.chooseAll members).isSome = true ↔
      (∀ p ∈ (a.offers members).toList, (a.choose p.2).isSome = true) ∧
        (a.choose (a.offered members .default)).isSome = true := by
    have hmapM := mapM_isSome_iff (l := (a.offers members).toList)
      (f := fun p => (a.choose p.2).map (p.1, ·))
    simp only [Option.isSome_map] at hmapM
    rw [← hmapM, chooseAll, offered]
    cases (a.offers members).toList.mapM fun p => (a.choose p.2).map (p.1, ·) <;>
      cases a.choose (members.filterMap a.default?) <;> simp
  rw [hsplit]
  constructor
  · rintro ⟨hsymbol, hdefault⟩ slot
    cases slot with
    | default => exact hdefault
    | symbol c =>
      rw [offered]
      cases hc : (a.offers members)[c]? with
      | none => rfl
      | some ns => exact hsymbol (c, ns) (Std.TreeMap.mem_toList_iff_getElem?_eq_some.mpr hc)
  · refine fun h => ⟨fun p hp => ?_, h .default⟩
    have hp := Std.TreeMap.mem_toList_iff_getElem?_eq_some.mp hp
    have hslot := h (.symbol p.1)
    rwa [offered, hp, Option.getD_some] at hslot

/-- There is a choice in all slots just for comparable states. -/
theorem chooseAll_isSome_iff : (a.chooseAll members).isSome = true ↔ a.Comparable members := by
  rw [chooseAll_isSome_iff_choose]
  refine forall_congr' fun slot => ?_
  rw [choose_isSome_iff]
  simp only [mem_offered]
  constructor
  · intro h s hs s' hs' n n' hn hn'
    exact h n ⟨s, hs, hn⟩ n' ⟨s', hs', hn'⟩
  · rintro h n ⟨s, hs, hn⟩ n' ⟨s', hs', hn'⟩
    exact h s hs s' hs' n n' hn hn'

/-! ## Rows -/

section Row

variable {id : StateId} {moves : List (Symbol × StateId)} {r : Row}
  (h : a.row id members moves = some r)
include h

/-- A row takes over the transform chosen among what its members offer for a symbol. -/
theorem lookup_attached_row (c : Symbol) : r.attached.lookup c =
    (a.choose (a.offered members (.symbol c))).bind Prod.fst := by
  obtain ⟨⟨chosen, default⟩, hall, rfl⟩ := Option.map_eq_some_iff.mp h
  obtain ⟨hchosen, -⟩ := chooseAll_eq_some_iff.mp hall
  have hattached : chosen.filterMap (fun p => p.2.1.map (p.1, ·)) =
      (a.offers members).toList.filterMap fun p =>
        ((a.choose p.2).bind Prod.fst).map (p.1, ·) := by
    calc chosen.filterMap (fun p => p.2.1.map (p.1, ·))
        = (chosen.map some).filterMap fun o => o.bind fun p => p.2.1.map (p.1, ·) := by
          rw [List.filterMap_map]
          rfl
      _ = _ := by
          rw [← hchosen, List.filterMap_map]
          refine List.filterMap_congr fun p _ => ?_
          rw [Function.comp_apply]
          cases a.choose p.2 <;> rfl
  show (chosen.filterMap fun p => p.2.1.map (p.1, ·)).lookup c = _
  rw [hattached, lookup_filterMap (nodup_keys_toList _) fun ns => (a.choose ns).bind Prod.fst,
    lookup_toList, offered]
  cases (a.offers members)[c]? <;> rfl

theorem default_row : r.default = (a.choose (a.offered members .default)).bind Prod.fst := by
  obtain ⟨⟨chosen, default⟩, hall, rfl⟩ := Option.map_eq_some_iff.mp h
  obtain ⟨-, hdefault⟩ := chooseAll_eq_some_iff.mp hall
  rw [hdefault]
  rfl

/-- The conflicts of a row are counted slot by slot. -/
theorem conflicts_row : r.conflicts = (a.slots members).foldl
    (fun k slot => k + ((a.choose (a.offered members slot)).map Prod.snd).getD 0) 0 := by
  obtain ⟨⟨chosen, default⟩, hall, rfl⟩ := Option.map_eq_some_iff.mp h
  obtain ⟨hchosen, hdefault⟩ := chooseAll_eq_some_iff.mp hall
  rw [slots, List.foldl_cons, hdefault, Option.map_some, Option.getD_some, Nat.zero_add]
  calc chosen.foldl (fun n p => n + p.2.2) default.2
      = (chosen.map some).foldl (fun n o => n + (o.map fun p => p.2.2).getD 0) default.2 := by
        rw [List.foldl_map]
        rfl
    _ = _ := by
        rw [← hchosen, List.foldl_map, List.foldl_map]
        refine List.foldl_ext _ _ _ fun k p hp => ?_
        rw [offered, Std.TreeMap.mem_toList_iff_getElem?_eq_some.mp hp, Option.getD_some]
        cases a.choose p.2 <;> rfl

end Row

end Automaton

end SoundChange
