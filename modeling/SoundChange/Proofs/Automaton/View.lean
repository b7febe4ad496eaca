import SoundChange.Automaton.Basic
import SoundChange.Application.Path
import Mathlib.Tactic.Common

/-!
# Views of states

What an automaton says of one state: the arcs out of it, each an edge with the transform attached to
it, its default transform, and whether it is final. There is one lemma for each operation; it tells
how the view of one state changes and that all other views stay.

`Tidy` is what the operations rely on: nothing is attached where there is no edge, or to a state
that does not exist.
-/

namespace SoundChange

/-- An edge and the transform attached to it. -/
structure Arc where
  symbol : Symbol
  target : StateId
  transform : Option TransformId := none
  deriving DecidableEq, Repr

/-- Adds an arc unless it is there already. -/
def Arc.addTo (arcs : List Arc) (b : Arc) : List Arc := if b ∈ arcs then arcs else arcs ++ [b]

@[simp] theorem Arc.mem_addTo {arcs : List Arc} {b c : Arc} :
    b ∈ Arc.addTo arcs c ↔ b ∈ arcs ∨ b = c := by
  unfold Arc.addTo
  split
  · rename_i h
    exact ⟨.inl, fun hb => hb.elim id fun hb => hb ▸ h⟩
  · rw [List.mem_append, List.mem_singleton]

theorem Arc.mem_foldl_addTo {b : Arc} : ∀ {new arcs : List Arc},
    b ∈ new.foldl Arc.addTo arcs ↔ b ∈ arcs ∨ b ∈ new
  | [], arcs => by simp
  | c :: new, arcs => by
    rw [List.foldl_cons, mem_foldl_addTo, mem_addTo, List.mem_cons, or_assoc]

/-- What is known of a state. -/
structure View where
  arcs : List Arc := []
  default : Option TransformId := none
  isFinal : Bool := false
  deriving DecidableEq, Repr

namespace Automaton

variable {a : Automaton} {s t x : StateId} {c : Symbol} {n : TransformId} {b : Arc}

/-- Whether a state was created for the target of a rule, if it is known. -/
def origin? (a : Automaton) (s : StateId) : Option Bool := a.states[s]?.map State.inTarget

/-- The edges out of a state with their transforms. -/
def arcs (a : Automaton) (s : StateId) : List Arc :=
  (a.edgesOf s).map fun e => ⟨e.symbol, e.target, a.attached? s e.symbol⟩

/-- The view of a state. -/
def view (a : Automaton) (s : StateId) : View := ⟨a.arcs s, a.default? s, a.isFinal s⟩

theorem mem_arcs : b ∈ a.arcs s ↔
    ⟨b.symbol, b.target⟩ ∈ a.edgesOf s ∧ a.attached? s b.symbol = b.transform := by
  obtain ⟨c, t, n⟩ := b
  simp only [arcs, List.mem_map, Arc.mk.injEq]
  constructor
  · rintro ⟨⟨_, _⟩, he, rfl, rfl, rfl⟩
    exact ⟨he, rfl⟩
  · rintro ⟨he, rfl⟩
    exact ⟨_, he, rfl, rfl, rfl⟩

theorem edgesOf_of_view {v : View} (h : a.view s = v) :
    a.edgesOf s = v.arcs.map fun b => ⟨b.symbol, b.target⟩ := by
  subst h
  rw [view, arcs, List.map_map]
  exact (List.map_id _).symm

theorem exists_mem_arcs {e : Edge} (h : e ∈ a.edgesOf s) :
    ∃ b ∈ (a.view s).arcs, ⟨b.symbol, b.target⟩ = e :=
  List.mem_map.mp (edgesOf_of_view rfl ▸ h)

theorem mem_edgesOf_iff : ⟨c, t⟩ ∈ a.edgesOf s ↔ ∃ b ∈ a.arcs s, b.symbol = c ∧ b.target = t := by
  constructor
  · exact fun h => ⟨⟨c, t, a.attached? s c⟩, mem_arcs.mpr ⟨h, rfl⟩, rfl, rfl⟩
  · rintro ⟨b, hb, rfl, rfl⟩
    exact (mem_arcs.mp hb).1

/-- Nothing is attached without an edge, and there are no edges without a state. -/
structure Tidy (a : Automaton) : Prop where
  size_edges : a.edges.size = a.size
  edge_of_attached {s : StateId} {c : Symbol} {n : TransformId} :
    a.attached? s c = some n → ∃ e ∈ a.edgesOf s, e.symbol = c
  lt_of_default {s : StateId} {n : TransformId} : a.default? s = some n → s < a.size

theorem tidy_empty : Tidy .empty where
  size_edges := rfl
  edge_of_attached h := by simp [attached?, empty] at h
  lt_of_default h := by simp [default?, empty] at h

namespace Tidy

/-- A state that is not known has an empty view. -/
theorem view_unknown (h : a.Tidy) (hs : a.size ≤ s) : a.view s = {} := by
  have hedges : a.edgesOf s = [] := edgesOf_eq_nil (h.size_edges ▸ hs)
  have hdefault : a.default? s = none := by
    cases hn : a.default? s with
    | none => rfl
    | some n => exact absurd (h.lt_of_default hn) (Nat.not_lt.mpr hs)
  have hfinal : a.isFinal s = false := by
    rw [isFinal, States.isFinal, Array.getElem?_eq_none hs, Option.any_none]
  rw [view, arcs, hedges, hdefault, hfinal, List.map_nil]

/-- Where the arcs of a symbol carry no transform, none is attached. -/
theorem attached_eq_none (h : a.Tidy) (hc : ∀ b ∈ a.arcs s, b.symbol = c → b.transform = none) :
    a.attached? s c = none := by
  cases hn : a.attached? s c with
  | none => rfl
  | some n =>
    obtain ⟨e, he, rfl⟩ := h.edge_of_attached hn
    exact hn.symm.trans (hc ⟨e.symbol, e.target, _⟩ (mem_arcs.mpr ⟨he, rfl⟩) rfl)

end Tidy

theorem view_empty : ∀ {s : StateId}, empty.view s = {}
  | 0 => rfl
  | 1 => rfl
  | n + 2 => tidy_empty.view_unknown (Nat.le_add_left 2 n)

/-! ## States -/

theorem lt_size_of_origin {b : Bool} (h : a.origin? s = some b) : s < a.size := by
  obtain ⟨_, hget, -⟩ := Option.map_eq_some_iff.mp h
  exact (Array.getElem?_eq_some_iff.mp hget).1

theorem edgesOf_addState (inTarget : Bool) : (a.addState inTarget).edgesOf s = a.edgesOf s := by
  simp only [edgesOf, addState, Array.getElem?_push]
  split
  · rename_i h
    rw [h, Array.getElem?_eq_none (Nat.le_refl _)]
    rfl
  · rfl

theorem isFinal_addState (inTarget : Bool) : (a.addState inTarget).isFinal s = a.isFinal s := by
  simp only [isFinal, States.isFinal, addState, States.create, Array.getElem?_push]
  split
  · rename_i h
    rw [h, Array.getElem?_eq_none (Nat.le_refl _)]
    rfl
  · rfl

theorem origin?_addState (inTarget : Bool) :
    (a.addState inTarget).origin? s = if s = a.size then some inTarget else a.origin? s := by
  rw [origin?, addState, States.create, Array.getElem?_push, apply_ite (Option.map State.inTarget)]
  rfl

theorem origin?_addState_of_eq_some {inTarget b : Bool} (h : a.origin? s = some b) :
    (a.addState inTarget).origin? s = some b := by
  rw [origin?_addState, if_neg (Nat.ne_of_lt (lt_size_of_origin h)), h]

@[simp] theorem size_addState (inTarget : Bool) : (a.addState inTarget).size = a.size + 1 :=
  Array.size_push ..

/-- A new state changes no view: its own was empty, and still is. -/
@[simp] theorem view_addState (inTarget : Bool) : (a.addState inTarget).view s = a.view s := by
  rw [view, view, arcs, arcs, edgesOf_addState, isFinal_addState]
  rfl

theorem Tidy.addState (h : a.Tidy) (inTarget : Bool) : (a.addState inTarget).Tidy where
  size_edges := by simpa [Automaton.addState, States.create, size] using h.size_edges
  edge_of_attached hn := by
    rw [edgesOf_addState]
    exact h.edge_of_attached hn
  lt_of_default hn := by
    rw [size_addState]
    exact Nat.lt_succ_of_lt (h.lt_of_default hn)

@[simp] theorem size_setFinal : (a.setFinal s).size = a.size := Array.size_modify

@[simp] theorem origin?_setFinal : (a.setFinal s).origin? x = a.origin? x := by
  simp only [origin?, setFinal, States.setFinal, Array.getElem?_modify]
  split
  · rw [Option.map_map]
    rfl
  · rfl

theorem Tidy.setFinal (h : a.Tidy) : (a.setFinal s).Tidy where
  size_edges := h.size_edges.trans size_setFinal.symm
  edge_of_attached := h.edge_of_attached
  lt_of_default hn := size_setFinal.symm ▸ h.lt_of_default hn

theorem isFinal_setFinal (hs : s < a.size) :
    (a.setFinal s).isFinal x = if x = s then true else a.isFinal x := by
  by_cases hx : x = s
  · subst hx
    have hget : a.states[x]? = some a.states[x] := Array.getElem?_eq_getElem hs
    simp [isFinal, States.isFinal, setFinal, States.setFinal, Array.getElem?_modify, hget]
  · simp [isFinal, States.isFinal, setFinal, States.setFinal, Array.getElem?_modify, hx,
      Ne.symm hx]

theorem view_setFinal_self (hs : s < a.size) :
    (a.setFinal s).view s = { a.view s with isFinal := true } := by
  rw [view, isFinal_setFinal hs, if_pos rfl]
  rfl

theorem view_setFinal_of_ne (hs : s < a.size) (hx : x ≠ s) :
    (a.setFinal s).view x = a.view x := by
  rw [view, isFinal_setFinal hs, if_neg hx]
  rfl

/-! ## Edges -/

theorem edgesOf_addEdge (hs : s < a.edges.size) : (a.addEdge s c t).edgesOf x =
    if x = s then (if ⟨c, t⟩ ∈ a.edgesOf s then a.edgesOf s else a.edgesOf s ++ [⟨c, t⟩])
    else a.edgesOf x := by
  by_cases hx : x = s
  · subst hx
    simp [edgesOf, addEdge, Array.getElem?_modify, Array.getElem?_eq_getElem hs]
  · simp [edgesOf, addEdge, Array.getElem?_modify, hx, Ne.symm hx]

@[simp] theorem size_addEdge : (a.addEdge s c t).size = a.size := rfl

/-- An edge is an arc without a transform, provided that its symbol has none. -/
theorem view_addEdge_self (h : a.Tidy) (hs : s < a.size)
    (hc : ∀ b ∈ (a.view s).arcs, b.symbol = c → b.transform = none) : (a.addEdge s c t).view s =
      { a.view s with arcs := Arc.addTo (a.view s).arcs ⟨c, t, none⟩ } := by
  have hattached : a.attached? s c = none := h.attached_eq_none hc
  have hmem : ⟨c, t⟩ ∈ a.edgesOf s ↔ ⟨c, t, none⟩ ∈ (a.view s).arcs :=
    (and_iff_left hattached).symm.trans (mem_arcs (b := ⟨c, t, none⟩)).symm
  rw [view, arcs, edgesOf_addEdge (h.size_edges ▸ hs), if_pos rfl, Arc.addTo]
  by_cases he : ⟨c, t⟩ ∈ a.edgesOf s
  · rw [if_pos he, if_pos (hmem.mp he)]
    rfl
  · rw [if_neg he, if_neg (mt hmem.mpr he), List.map_append, List.map_singleton]
    show View.mk (a.arcs s ++ [⟨c, t, a.attached? s c⟩]) _ _ = _
    rw [hattached]
    rfl

theorem view_addEdge_of_ne (hx : x ≠ s) : (a.addEdge s c t).view x = a.view x := by
  have hedges : (a.addEdge s c t).edgesOf x = a.edgesOf x := by
    simp [edgesOf, addEdge, Array.getElem?_modify, Ne.symm hx]
  rw [view, arcs, hedges]
  rfl

theorem Tidy.addEdge (h : a.Tidy) (hs : s < a.size) : (a.addEdge s c t).Tidy where
  size_edges := by simpa [Automaton.addEdge, size] using h.size_edges
  edge_of_attached {x d n} hn := by
    obtain ⟨e, he, hd⟩ := h.edge_of_attached hn
    refine ⟨e, ?_, hd⟩
    rw [edgesOf_addEdge (h.size_edges ▸ hs)]
    split
    · rename_i hx
      subst hx
      split
      · exact he
      · exact List.mem_append_left _ he
    · exact he
  lt_of_default := h.lt_of_default

/-! ## Transforms -/

@[simp] theorem view_addTransform (u : Transform) : (a.addTransform u).view s = a.view s := rfl

@[simp] theorem size_addTransform (u : Transform) : (a.addTransform u).size = a.size := rfl

theorem Tidy.addTransform (h : a.Tidy) (u : Transform) : (a.addTransform u).Tidy :=
  ⟨h.size_edges, h.edge_of_attached, h.lt_of_default⟩

theorem transform?_addTransform (u : Transform) : (a.addTransform u).transform? n =
    if n = a.transforms.size then some u else a.transform? n := Array.getElem?_push

theorem attach_of_none (h : a.attached? s c = none) :
    a.attach s c n = { a with attached := a.attached.insert (s, c) n } := by
  rw [attach, h]

theorem attached?_attach (h : a.attached? s c = none) (d : Symbol) :
    (a.attach s c n).attached? x d = if x = s ∧ d = c then some n else a.attached? x d := by
  rw [attach_of_none h]
  simp only [attached?, Std.TreeMap.getElem?_insert, Std.LawfulEqCmp.compare_eq_iff_eq,
    Prod.mk.injEq, eq_comm (a := s), eq_comm (a := c)]

@[simp] theorem size_attach : (a.attach s c n).size = a.size := by
  unfold attach
  split
  · split <;> rfl
  · rfl

theorem edgesOf_attach : (a.attach s c n).edgesOf x = a.edgesOf x := by
  unfold attach
  split
  · split <;> rfl
  · rfl

/-- A transform is attached to all arcs of its symbol, provided that they have none. -/
theorem view_attach_self (h : a.attached? s c = none) : (a.attach s c n).view s =
    { a.view s with arcs := (a.view s).arcs.map fun b =>
      if b.symbol = c then { b with transform := some n } else b } := by
  have hrest : (a.attach s c n).view s = ⟨(a.attach s c n).arcs s, a.default? s, a.isFinal s⟩ := by
    rw [attach_of_none h]
    rfl
  rw [hrest, arcs, edgesOf_attach]
  refine congrArg (fun bs => View.mk bs _ _) ?_
  show _ = (a.arcs s).map _
  rw [arcs, List.map_map]
  refine List.map_congr_left fun e _ => ?_
  rw [attached?_attach h, Function.comp_apply]
  by_cases he : e.symbol = c <;> simp [he]

theorem view_attach_of_ne (h : a.attached? s c = none) (hx : x ≠ s) :
    (a.attach s c n).view x = a.view x := by
  have hrest : (a.attach s c n).view x = ⟨(a.attach s c n).arcs x, a.default? x, a.isFinal x⟩ := by
    rw [attach_of_none h]
    rfl
  rw [hrest, arcs, edgesOf_attach]
  refine congrArg (fun bs => View.mk bs _ _) (List.map_congr_left fun e _ => ?_)
  rw [attached?_attach h, if_neg fun h => hx h.1]

theorem Tidy.attach (h : a.Tidy) (hattached : a.attached? s c = none)
    (hc : ∃ e ∈ a.edgesOf s, e.symbol = c) : (a.attach s c n).Tidy where
  size_edges := by
    rw [attach_of_none hattached]
    exact h.size_edges
  edge_of_attached hm := by
    rw [attached?_attach hattached] at hm
    rw [edgesOf_attach]
    split at hm
    · rename_i hx
      obtain ⟨rfl, rfl⟩ := hx
      exact hc
    · exact h.edge_of_attached hm
  lt_of_default := by
    rw [attach_of_none hattached]
    exact h.lt_of_default

theorem attachDefault_of_none (h : a.default? s = none) :
    a.attachDefault s n = { a with defaults := a.defaults.insert s n } := by
  rw [attachDefault, h]

theorem default?_attachDefault (h : a.default? s = none) :
    (a.attachDefault s n).default? x = if x = s then some n else a.default? x := by
  rw [attachDefault_of_none h]
  simp only [default?, Std.TreeMap.getElem?_insert, Std.LawfulEqCmp.compare_eq_iff_eq,
    eq_comm (a := s)]

@[simp] theorem size_attachDefault : (a.attachDefault s n).size = a.size := by
  unfold attachDefault
  split <;> rfl

theorem view_attachDefault_self (h : (a.view s).default = none) :
    (a.attachDefault s n).view s = { a.view s with default := some n } := by
  have hdefault : a.default? s = none := h
  rw [view, default?_attachDefault hdefault, if_pos rfl, attachDefault_of_none hdefault]
  rfl

theorem view_attachDefault_of_ne (h : (a.view s).default = none) (hx : x ≠ s) :
    (a.attachDefault s n).view x = a.view x := by
  have hdefault : a.default? s = none := h
  rw [view, default?_attachDefault hdefault, if_neg hx, attachDefault_of_none hdefault]
  rfl

theorem Tidy.attachDefault (h : a.Tidy) (hs : s < a.size) (hdefault : (a.view s).default = none) :
    (a.attachDefault s n).Tidy where
  size_edges := by
    rw [attachDefault_of_none hdefault]
    exact h.size_edges
  edge_of_attached := by
    rw [attachDefault_of_none hdefault]
    exact h.edge_of_attached
  lt_of_default {x m} hm := by
    rw [default?_attachDefault hdefault] at hm
    rw [size_attachDefault]
    split at hm
    · rename_i hx
      exact hx ▸ hs
    · exact h.lt_of_default hm

end Automaton

end SoundChange
