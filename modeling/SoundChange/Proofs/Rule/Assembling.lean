import SoundChange.Proofs.Automaton.View
import SoundChange.Rule.Assembly

/-!
# Assembling, step by step

What one step of assembling does. `Yields` says that assembling succeeds and with what; a sequence
of steps is taken apart by `yields_bind`.

* `Rewrites`: the view of one state is replaced, and nothing else;
* `Grows`: the view of one state may change, and there may be more states and transforms;
* `Lays`: something is laid out from one state to another, which is left blank, and whatever becomes
  of the automaton outside, what was laid out satisfies a predicate.
-/

namespace SoundChange.Assembly

variable {α β : Type} {σ σ₁ σ₂ σ₃ : Assembly} {s t x mid : StateId} {c : Symbol} {n : TransformId}

/-- Assembling leads from one assembly to another and gives a value. -/
def Yields (p : Assemble α) (σ : Assembly) (v : α) (σ₁ : Assembly) : Prop :=
  p.run σ = .ok (v, σ₁)

/-- The view of a state of the automaton being assembled. -/
abbrev view (σ : Assembly) (s : StateId) : View := σ.automaton.view s

section Yields

variable {v w : α} {p : Assemble α} {f : α → Assemble β}

theorem yields_pure : Yields (pure v) σ w σ₁ ↔ w = v ∧ σ₁ = σ := by
  constructor
  · intro h
    cases h
    exact ⟨rfl, rfl⟩
  · rintro ⟨rfl, rfl⟩
    rfl

theorem yields_bind {w : β} :
    Yields (p >>= f) σ w σ₂ ↔ ∃ v σ₁, Yields p σ v σ₁ ∧ Yields (f v) σ₁ w σ₂ := by
  have hrun : (p >>= f).run σ = (p.run σ).bind fun q => (f q.1).run q.2 := rfl
  rw [Yields, hrun]
  cases hp : p.run σ with
  | error e =>
    constructor
    · intro h
      cases h
    · rintro ⟨v, σ₁, hv, -⟩
      rw [Yields, hp] at hv
      cases hv
  | ok q =>
    constructor
    · exact fun h => ⟨q.1, q.2, hp, h⟩
    · rintro ⟨v, σ₁, hv, h⟩
      rw [Yields, hp] at hv
      cases hv
      exact h

theorem yields_map {g : α → β} {w : β} :
    Yields (g <$> p) σ w σ₁ ↔ ∃ v, Yields p σ v σ₁ ∧ w = g v := by
  rw [map_eq_pure_bind, yields_bind]
  simp only [yields_pure]
  constructor
  · rintro ⟨v, _, hv, rfl, rfl⟩
    exact ⟨v, hv, rfl⟩
  · rintro ⟨v, hv, rfl⟩
    exact ⟨v, _, hv, rfl, rfl⟩

theorem yields_lift {e : Except RuleError α} :
    Yields (e : Assemble α) σ v σ₁ ↔ e = .ok v ∧ σ = σ₁ := by
  cases e with
  | error e =>
    constructor
    · intro h
      cases h
    · rintro ⟨h, -⟩
      cases h
  | ok w =>
    constructor
    · intro h
      cases h
      exact ⟨rfl, rfl⟩
    · rintro ⟨h, rfl⟩
      cases h
      rfl

theorem yields_change {f : Automaton → Automaton} {u : Unit} :
    Yields (change f) σ u σ₁ ↔ σ₁ = { σ with automaton := f σ.automaton } := by
  constructor
  · intro h
    cases h
    rfl
  · rintro rfl
    rfl

theorem yields_addState {inTarget : Bool} : Yields (addState inTarget) σ s σ₁ ↔
    s = σ.automaton.size ∧ σ₁ = { σ with automaton := σ.automaton.addState inTarget } := by
  constructor
  · intro h
    cases h
    exact ⟨rfl, rfl⟩
  · rintro ⟨rfl, rfl⟩
    rfl

theorem yields_addTransform {u : Transform} : Yields (addTransform u) σ n σ₁ ↔
    n = σ.automaton.transforms.size ∧
      σ₁ = { σ with automaton := σ.automaton.addTransform u } := by
  constructor
  · intro h
    cases h
    exact ⟨rfl, rfl⟩
  · rintro ⟨rfl, rfl⟩
    rfl

theorem yields_addUnit {k : Nat} :
    Yields addUnit σ k σ₁ ↔ k = σ.units ∧ σ₁ = { σ with units := σ.units + 1 } := by
  constructor
  · intro h
    cases h
    exact ⟨rfl, rfl⟩
  · rintro ⟨rfl, rfl⟩
    rfl

theorem Yields.unique {w : α} (h : Yields p σ v σ₁) (h' : Yields p σ w σ₂) : w = v ∧ σ₂ = σ₁ := by
  cases Except.ok.inj (h.symm.trans h')
  exact ⟨rfl, rfl⟩

theorem not_yields_throw {e : RuleError} : ¬ Yields (throw e : Assemble α) σ v σ₁ := nofun

end Yields

/-! ## Frames -/

/-- What no step takes back: a transform keeps its number, and a state what it was created for. -/
structure Retains (a b : Automaton) : Prop where
  transform_eq {n : TransformId} {u : Transform} : a.transform? n = some u → b.transform? n = some u
  origin_eq {x : StateId} {inTarget : Bool} :
    a.origin? x = some inTarget → b.origin? x = some inTarget

theorem Retains.refl (a : Automaton) : Retains a a := ⟨id, id⟩

theorem Retains.trans {a b c : Automaton} (h : Retains a b) (h' : Retains b c) : Retains a c :=
  ⟨h'.transform_eq ∘ h.transform_eq, h'.origin_eq ∘ h.origin_eq⟩

/-- From one assembly to a later one, only the view of `s` among those that there were may have
changed. -/
structure Grows (σ : Assembly) (s : StateId) (σ₁ : Assembly) : Prop extends
    Retains σ.automaton σ₁.automaton where
  tidy : σ₁.automaton.Tidy
  size_le : σ.automaton.size ≤ σ₁.automaton.size
  view_eq {x : StateId} : x < σ.automaton.size → x ≠ s → σ₁.view x = σ.view x

/-- The view of `s` has become `v`, and apart from more transforms nothing else has changed. -/
structure Rewrites (σ : Assembly) (s : StateId) (v : View) (σ₁ : Assembly) : Prop extends
    Retains σ.automaton σ₁.automaton where
  tidy : σ₁.automaton.Tidy
  size_le : σ.automaton.size ≤ σ₁.automaton.size
  view_self : σ₁.view s = v
  view_of_ne {x : StateId} : x ≠ s → σ₁.view x = σ.view x
  units_eq : σ₁.units = σ.units

theorem Grows.refl (h : σ.automaton.Tidy) (s : StateId) : Grows σ s σ :=
  ⟨.refl _, h, Nat.le_refl _, fun _ _ => rfl⟩

theorem Grows.lt_size (h : Grows σ s σ₁) (hx : x < σ.automaton.size) : x < σ₁.automaton.size :=
  Nat.lt_of_lt_of_le hx h.size_le

/-- What changes a state that is new, or the same one, is part of changing that one. -/
theorem Grows.trans (h : Grows σ s σ₁) (h' : Grows σ₁ t σ₂)
    (ht : t = s ∨ σ.automaton.size ≤ t) : Grows σ s σ₂ where
  toRetains := h.toRetains.trans h'.toRetains
  tidy := h'.tidy
  size_le := Nat.le_trans h.size_le h'.size_le
  view_eq {x} hx hne := by
    have hxt : x ≠ t := by
      rintro rfl
      exact ht.elim hne (Nat.not_le.mpr hx)
    rw [h'.view_eq (h.lt_size hx) hxt, h.view_eq hx hne]

theorem Rewrites.grows {v : View} (h : Rewrites σ s v σ₁) : Grows σ s σ₁ :=
  ⟨h.toRetains, h.tidy, h.size_le, fun _ hne => h.view_of_ne hne⟩

theorem Rewrites.lt_size {v : View} (h : Rewrites σ s v σ₁) (hx : x < σ.automaton.size) :
    x < σ₁.automaton.size :=
  Nat.lt_of_lt_of_le hx h.size_le

theorem Rewrites.trans {v w : View} (h : Rewrites σ s v σ₁) (h' : Rewrites σ₁ s w σ₂) :
    Rewrites σ s w σ₂ where
  toRetains := h.toRetains.trans h'.toRetains
  tidy := h'.tidy
  size_le := Nat.le_trans h.size_le h'.size_le
  view_self := h'.view_self
  view_of_ne hx := (h'.view_of_ne hx).trans (h.view_of_ne hx)
  units_eq := h'.units_eq.trans h.units_eq

/-- A state of which nothing is said yet. -/
structure Blank (σ : Assembly) (s : StateId) : Prop where
  tidy : σ.automaton.Tidy
  lt_size : s < σ.automaton.size
  view_eq : σ.view s = {}

/-- No view has changed: there are more states and transforms at most. -/
structure Quiet (σ σ₁ : Assembly) : Prop extends Retains σ.automaton σ₁.automaton where
  tidy : σ₁.automaton.Tidy
  size_le : σ.automaton.size ≤ σ₁.automaton.size
  view_eq (x : StateId) : σ₁.view x = σ.view x

namespace Quiet

theorem refl (h : σ.automaton.Tidy) : Quiet σ σ :=
  ⟨.refl _, h, Nat.le_refl _, fun _ => rfl⟩

theorem trans (h : Quiet σ σ₁) (h' : Quiet σ₁ σ₂) : Quiet σ σ₂ where
  toRetains := h.toRetains.trans h'.toRetains
  tidy := h'.tidy
  size_le := Nat.le_trans h.size_le h'.size_le
  view_eq x := (h'.view_eq x).trans (h.view_eq x)

theorem grows (h : Quiet σ σ₁) (s : StateId) : Grows σ s σ₁ :=
  ⟨h.toRetains, h.tidy, h.size_le, fun _ _ => h.view_eq _⟩

theorem lt_size (h : Quiet σ σ₁) (hs : s < σ.automaton.size) : s < σ₁.automaton.size :=
  Nat.lt_of_lt_of_le hs h.size_le

theorem rewrites (h : Quiet σ σ₁) (hunits : σ₁.units = σ.units) (s : StateId) :
    Rewrites σ s (σ.view s) σ₁ :=
  ⟨h.toRetains, h.tidy, h.size_le, h.view_eq s, fun _ => h.view_eq _, hunits⟩

theorem blank (h : Quiet σ σ₁) (hs : Blank σ s) : Blank σ₁ s :=
  ⟨h.tidy, h.lt_size hs.lt_size, (h.view_eq s).trans hs.view_eq⟩

end Quiet

/-- A new state has an empty view, as it had before. -/
theorem quiet_addState {inTarget : Bool} (hσ : σ.automaton.Tidy)
    (h : Yields (addState inTarget) σ t σ₁) :
    Quiet σ σ₁ ∧ t = σ.automaton.size ∧ Blank σ₁ t ∧ σ₁.units = σ.units := by
  obtain ⟨rfl, rfl⟩ := yields_addState.mp h
  have hview (x : StateId) :
      (σ.automaton.addState inTarget).view x = σ.view x := Automaton.view_addState inTarget
  have hsize : (σ.automaton.addState inTarget).size = σ.automaton.size + 1 :=
    Automaton.size_addState inTarget
  have hquiet : Quiet σ { σ with automaton := σ.automaton.addState inTarget } :=
    ⟨⟨id, Automaton.origin?_addState_of_eq_some⟩, hσ.addState inTarget, hsize ▸ Nat.le_succ _,
      hview⟩
  exact ⟨hquiet, rfl, ⟨hquiet.tidy, hsize ▸ Nat.lt_succ_self _,
    (hview _).trans (hσ.view_unknown (Nat.le_refl _))⟩, rfl⟩

theorem origin_addState {inTarget : Bool} (h : Yields (addState inTarget) σ t σ₁) :
    σ₁.automaton.origin? t = some inTarget := by
  obtain ⟨rfl, rfl⟩ := yields_addState.mp h
  rw [Automaton.origin?_addState, if_pos rfl]

theorem quiet_addTransform {u : Transform} (hσ : σ.automaton.Tidy)
    (h : Yields (addTransform u) σ n σ₁) :
    Quiet σ σ₁ ∧ σ₁.automaton.transform? n = some u ∧ σ₁.units = σ.units := by
  obtain ⟨rfl, rfl⟩ := yields_addTransform.mp h
  refine ⟨⟨⟨fun {m _} hm => ?_, id⟩, hσ.addTransform u, Nat.le_refl _, fun _ => rfl⟩, ?_, rfl⟩
  · have hne : m ≠ σ.automaton.transforms.size :=
      Nat.ne_of_lt (Array.getElem?_eq_some_iff.mp hm).1
    rwa [Automaton.transform?_addTransform, if_neg hne]
  · rw [Automaton.transform?_addTransform, if_pos rfl]

theorem quiet_addUnit {k : Nat} (hσ : σ.automaton.Tidy) (h : Yields addUnit σ k σ₁) :
    Quiet σ σ₁ ∧ k = σ.units ∧ σ₁.units = σ.units + 1 := by
  obtain ⟨rfl, rfl⟩ := yields_addUnit.mp h
  exact ⟨⟨⟨id, id⟩, hσ, Nat.le_refl _, fun _ => rfl⟩, rfl, rfl⟩

section Edges

variable {b : Arc}

theorem addTo_of_fresh {arcs : List Arc} {d : StateId} (h : ∀ b ∈ arcs, b.symbol ≠ c) :
    Arc.addTo arcs ⟨c, d, none⟩ = arcs ++ [⟨c, d, none⟩] :=
  if_neg fun hmem => h _ hmem rfl

/-- An edge without a transform, for a symbol that has none. -/
theorem rewrites_addEdge {u : Unit} (hσ : σ.automaton.Tidy) (hs : s < σ.automaton.size)
    (hc : ∀ b ∈ (σ.view s).arcs, b.symbol = c → b.transform = none)
    (h : Yields (change (·.addEdge s c t)) σ u σ₁) :
    Rewrites σ s { σ.view s with arcs := Arc.addTo (σ.view s).arcs ⟨c, t, none⟩ } σ₁ := by
  obtain rfl := yields_change.mp h
  exact ⟨⟨id, id⟩, hσ.addEdge hs, Nat.le_refl _, Automaton.view_addEdge_self hσ hs hc,
    Automaton.view_addEdge_of_ne, rfl⟩

/-- A transform for the arcs of a symbol that have none. -/
theorem rewrites_attach {u : Unit} (hσ : σ.automaton.Tidy)
    (hc : ∀ b ∈ (σ.view s).arcs, b.symbol = c → b.transform = none)
    (hedge : ∃ b ∈ (σ.view s).arcs, b.symbol = c)
    (h : Yields (change (·.attach s c n)) σ u σ₁) :
    Rewrites σ s { σ.view s with arcs := (σ.view s).arcs.map fun b =>
      if b.symbol = c then { b with transform := some n } else b } σ₁ := by
  obtain rfl := yields_change.mp h
  have hnone : σ.automaton.attached? s c = none := hσ.attached_eq_none hc
  obtain ⟨b, hb, rfl⟩ := hedge
  have hretains : Retains σ.automaton (σ.automaton.attach s b.symbol n) := by
    rw [Automaton.attach_of_none hnone]
    exact ⟨id, id⟩
  exact ⟨hretains, hσ.attach hnone ⟨_, (Automaton.mem_arcs.mp hb).1, rfl⟩,
    Nat.le_of_eq Automaton.size_attach.symm, Automaton.view_attach_self hnone,
    Automaton.view_attach_of_ne hnone, rfl⟩

/-- A transform for the last arc, the only one of its symbol. -/
theorem rewrites_attach_last {arcs : List Arc} {u : Unit} (hσ : σ.automaton.Tidy)
    (hs : (σ.view s).arcs = arcs ++ [⟨c, t, none⟩]) (hc : ∀ b ∈ arcs, b.symbol ≠ c)
    (h : Yields (change (·.attach s c n)) σ u σ₁) :
    Rewrites σ s { σ.view s with arcs := arcs ++ [⟨c, t, some n⟩] } σ₁ := by
  have hkeep : arcs.map (fun b => if b.symbol = c then { b with transform := some n } else b) =
      arcs :=
    (List.map_congr_left (g := id) fun b hb => if_neg (hc b hb)).trans (List.map_id _)
  have hattach := rewrites_attach hσ ?_ ?_ h
  · rwa [hs, List.map_append, hkeep, List.map_singleton, if_pos rfl] at hattach
  · rw [hs]
    intro b hb heq
    rcases List.mem_append.mp hb with hb | hb
    · exact absurd heq (hc b hb)
    · rw [List.mem_singleton.mp hb]
  · rw [hs]
    exact ⟨_, List.mem_append_right _ (List.mem_singleton.mpr rfl), rfl⟩

/-- An arc for a symbol that has none. -/
theorem rewrites_addArc {tr : Option TransformId} {u : Unit} (hσ : σ.automaton.Tidy)
    (hs : s < σ.automaton.size) (hc : ∀ b ∈ (σ.view s).arcs, b.symbol ≠ c)
    (h : Yields (addEdge s c t tr) σ u σ₁) :
    Rewrites σ s { σ.view s with arcs := (σ.view s).arcs ++ [⟨c, t, tr⟩] } σ₁ := by
  obtain ⟨_, σ', hedge, h⟩ := yields_bind.mp h
  have hedge := rewrites_addEdge hσ hs (fun b hb heq => absurd heq (hc b hb)) hedge
  rw [addTo_of_fresh hc] at hedge
  cases tr with
  | none =>
    obtain ⟨-, rfl⟩ := yields_pure.mp h
    exact hedge
  | some n =>
    have hlast := hedge.trans (rewrites_attach_last hedge.tidy (by rw [hedge.view_self]) hc h)
    rwa [hedge.view_self] at hlast

/-- A default transform for a state that has none. -/
theorem rewrites_attachDefault {u : Unit} (hσ : σ.automaton.Tidy) (hs : s < σ.automaton.size)
    (hdefault : (σ.view s).default = none) (h : Yields (change (·.attachDefault s n)) σ u σ₁) :
    Rewrites σ s { σ.view s with default := some n } σ₁ := by
  obtain rfl := yields_change.mp h
  have hretains : Retains σ.automaton (σ.automaton.attachDefault s n) := by
    rw [Automaton.attachDefault_of_none hdefault]
    exact ⟨id, id⟩
  exact ⟨hretains, hσ.attachDefault hs hdefault, Nat.le_of_eq Automaton.size_attachDefault.symm,
    Automaton.view_attachDefault_self hdefault, Automaton.view_attachDefault_of_ne hdefault, rfl⟩

end Edges

/-! ## Laying something out -/

/-- The automaton has the views of an assembly where they are owned. -/
structure Keeps (a : Automaton) (σ : Assembly) (owned : StateId → Prop) : Prop extends
    Retains σ.automaton a where
  view_eq {x : StateId} : owned x → a.view x = σ.view x

variable {a : Automaton} {owned owned' : StateId → Prop} {P Q : Automaton → Prop}

theorem Keeps.mono (h : Keeps a σ owned) (hsub : ∀ x, owned' x → owned x) : Keeps a σ owned' :=
  ⟨h.toRetains, fun hx => h.view_eq (hsub _ hx)⟩

/-- What is kept was there before the assembly grew. -/
theorem Keeps.back (h : Keeps a σ₁ owned) (hg : Grows σ s σ₁)
    (hsub : ∀ x, owned' x → owned x ∧ x < σ.automaton.size ∧ x ≠ s) : Keeps a σ owned' where
  view_eq hx := by
    obtain ⟨hx, hlt, hne⟩ := hsub _ hx
    rw [h.view_eq hx, hg.view_eq hlt hne]
  toRetains := hg.toRetains.trans h.toRetains

/-- The states from `s` to `t`: `s` itself and the new ones, without `t`. -/
def Between (σ : Assembly) (s : StateId) (σ₁ : Assembly) (t x : StateId) : Prop :=
  x ≠ t ∧ (x = s ∨ σ.automaton.size ≤ x) ∧ x < σ₁.automaton.size

/-- From a blank state to another one something has been laid out. It satisfies `P` in every
automaton that keeps it. -/
structure Lays (σ : Assembly) (s : StateId) (σ₁ : Assembly) (t : StateId)
    (P : Automaton → Prop) : Prop where
  grows : Grows σ s σ₁
  blank : Blank σ₁ t
  eq_or_new : t = s ∨ σ.automaton.size ≤ t
  laid {a : Automaton} : Keeps a σ₁ (Between σ s σ₁ t) → P a

namespace Lays

theorem refl (h : Blank σ s) (hP : ∀ a, P a) : Lays σ s σ s P :=
  ⟨.refl h.tidy s, h, .inl rfl, fun _ => hP _⟩

theorem mono (h : Lays σ s σ₁ t P) (hPQ : ∀ a, P a → Q a) : Lays σ s σ₁ t Q :=
  ⟨h.grows, h.blank, h.eq_or_new, fun ha => hPQ _ (h.laid ha)⟩

/-- What is kept may be used beside what is laid out. -/
theorem keeping (h : Lays σ s σ₁ t P) :
    Lays σ s σ₁ t fun a => P a ∧ Keeps a σ₁ (Between σ s σ₁ t) :=
  ⟨h.grows, h.blank, h.eq_or_new, fun ha => ⟨h.laid ha, ha⟩⟩

/-- A state that was blank is still blank, or is one of those between `s` and `t`. -/
theorem blank_or_between (h : Lays σ s σ₁ t P) (hx : σ.view x = {}) :
    σ₁.view x = {} ∨ Between σ s σ₁ t x := by
  by_cases hlt : x < σ₁.automaton.size
  · by_cases hxt : x = t
    · exact .inl (hxt ▸ h.blank.view_eq)
    · by_cases hold : x ≠ s ∧ x < σ.automaton.size
      · exact .inl ((h.grows.view_eq hold.2 hold.1).trans hx)
      · rw [not_and_or, not_not, Nat.not_lt] at hold
        exact .inr ⟨hxt, hold, hlt⟩
  · exact .inl (h.grows.tidy.view_unknown (Nat.not_lt.mp hlt))

/-- A state that gets an edge was blank. -/
theorem view_of_edge {e : Edge} (h : Lays σ s σ₁ t P) (hs : Blank σ s)
    (hbefore : e ∉ σ.automaton.edgesOf x) (hafter : e ∈ σ₁.automaton.edgesOf x) :
    σ.view x = {} := by
  by_cases hxs : x = s
  · exact hxs ▸ hs.view_eq
  · refine hs.tidy.view_unknown (Nat.not_lt.mp fun hlt => hbefore ?_)
    have hview : σ₁.automaton.view x = σ.automaton.view x := h.grows.view_eq hlt hxs
    rwa [Automaton.edgesOf_of_view rfl, ← hview, ← Automaton.edgesOf_of_view rfl]

/-- What is laid out last is kept by what keeps all. -/
theorem keeps_right (h : Lays σ s σ₁ mid P) (ha : Keeps a σ₂ (Between σ s σ₂ t)) :
    Keeps a σ₂ (Between σ₁ mid σ₂ t) := by
  refine ha.mono fun x hx => ⟨hx.1, ?_, hx.2.2⟩
  rcases hx.2.1 with rfl | hle
  · exact h.eq_or_new
  · exact .inr (Nat.le_trans h.grows.size_le hle)

/-- What is laid out first is kept by what keeps all. -/
theorem keeps_left (h : Lays σ₁ mid σ₂ t Q) (ha : Keeps a σ₂ (Between σ s σ₂ t)) :
    Keeps a σ₁ (Between σ s σ₁ mid) := by
  refine ha.back h.grows fun x hx => ⟨⟨?_, hx.2.1, ?_⟩, hx.2.2, hx.1⟩
  · rintro rfl
    exact h.eq_or_new.elim hx.1 (Nat.not_le.mpr hx.2.2)
  · exact h.grows.lt_size hx.2.2

/-- A step that changes no view lays out nothing, but its transforms are kept. -/
theorem of_quiet (h : Quiet σ σ₁) (hs : Blank σ s) :
    Lays σ s σ₁ s fun a => Keeps a σ₁ fun _ => False :=
  ⟨h.grows s, h.blank hs, .inl rfl, fun ha => ha.mono nofun⟩

theorem trans (h : Lays σ s σ₁ mid P) (h' : Lays σ₁ mid σ₂ t Q) :
    Lays σ s σ₂ t fun a => P a ∧ Q a where
  grows := h.grows.trans h'.grows h.eq_or_new
  blank := h'.blank
  eq_or_new := by
    rcases h'.eq_or_new with rfl | hle
    · exact h.eq_or_new
    · exact .inr (Nat.le_trans h.grows.size_le hle)
  laid ha := ⟨h.laid (h'.keeps_left ha), h'.laid (h.keeps_right ha)⟩

end Lays

/-- An arc to a new state. -/
theorem rewrites_arc {inTarget : Bool} {tr : Option TransformId} {u : Unit} (hs : Blank σ s)
    (hstate : Yields (addState inTarget) σ t σ₁) (harc : Yields (addEdge s c t tr) σ₁ u σ₂) :
    Rewrites σ s { arcs := [⟨c, t, tr⟩] } σ₂ ∧ t = σ.automaton.size ∧
      σ₂.automaton.origin? t = some inTarget := by
  have horigin := origin_addState hstate
  obtain ⟨hquiet, hid, -, hunits⟩ := quiet_addState hs.tidy hstate
  have hs₁ := hquiet.blank hs
  have harc := rewrites_addArc hs₁.tidy hs₁.lt_size (by simp [hs₁.view_eq]) harc
  rw [hs₁.view_eq] at harc
  exact ⟨(hquiet.rewrites hunits s).trans harc, hid, harc.origin_eq horigin⟩

theorem lays_arc {inTarget : Bool} {tr : Option TransformId} {u : Unit} (hs : Blank σ s)
    (hstate : Yields (addState inTarget) σ t σ₁) (harc : Yields (addEdge s c t tr) σ₁ u σ₂) :
    Lays σ s σ₂ t (fun a => a.view s = { arcs := [⟨c, t, tr⟩] }) ∧ σ₂.units = σ.units := by
  obtain ⟨hrewrites, rfl, horigin⟩ := rewrites_arc hs hstate harc
  have hne : σ.automaton.size ≠ s := Nat.ne_of_gt hs.lt_size
  refine ⟨⟨hrewrites.grows, ⟨hrewrites.tidy, Automaton.lt_size_of_origin horigin, ?_⟩,
    .inr (Nat.le_refl _), fun ha => ?_⟩, hrewrites.units_eq⟩
  · exact (hrewrites.view_of_ne hne).trans (hs.tidy.view_unknown (Nat.le_refl _))
  · rw [ha.view_eq ⟨hne.symm, .inl rfl, hrewrites.lt_size hs.lt_size⟩, hrewrites.view_self]

end SoundChange.Assembly
