import SoundChange.Proofs.Rule.Visits
import Mathlib.Logic.Relation
import Mathlib.Data.List.Nodup

/-!
# What the states of a rule's automaton look like

`Shapely` says of one state what holds of all states but the last: an arc either forbids a symbol or
leads on (`LeadsOn`), what reads is deterministic, and a default transform is there for a silent arc
behind all others. `Automaton.Settles` says that no way onwards from a state goes on for ever.

`Shaped` is what assembling something does for this: the states that were blank before are blank
again, or shapely. It composes like the steps of assembling do (`Shaped.trans`); `ShapedBeside` is
the same for the states other than the one that gets more arcs.
-/

namespace SoundChange

open Assembly Layout

namespace Automaton

variable {a : Automaton} {s t : StateId}

/-- An edge joins one state to another. -/
def Joins (a : Automaton) (s t : StateId) : Prop := ∃ e ∈ a.edgesOf s, e.target = t

/-- Every way onwards from the state comes to an end. -/
def Settles (a : Automaton) (s : StateId) : Prop := Acc (fun t s => a.Joins s t) s

theorem settles_of_arcs {v : View} (h : a.view s = v) (hv : ∀ b ∈ v.arcs, a.Settles b.target) :
    a.Settles s := by
  subst h
  refine .intro s fun t ⟨e, he, het⟩ => ?_
  subst het
  exact hv ⟨e.symbol, e.target, a.attached? s e.symbol⟩ (mem_arcs.mpr ⟨he, rfl⟩)

theorem Settles.not_cycle (h : a.Settles s) : ¬ Relation.TransGen a.Joins s s := by
  induction h with
  | intro s _ ih =>
    intro hcycle
    obtain ⟨t, hst, hts⟩ := Relation.TransGen.head'_iff.mp hcycle
    exact ih t hst (.tail' hts hst)

end Automaton

theorem Arc.nodup_foldl_addTo : ∀ {new arcs : List Arc}, arcs.Nodup →
    (new.foldl Arc.addTo arcs).Nodup
  | [], _, h => h
  | b :: new, arcs, h => by
    refine @nodup_foldl_addTo new _ ?_
    unfold addTo
    split
    · exact h
    · exact List.nodup_append.mpr ⟨h, List.nodup_singleton b, fun c hc d hd => by
        rw [List.mem_singleton.mp hd]
        rintro rfl
        contradiction⟩

/-! ## One state -/

/-- The visit is to a choice. -/
def Visit.IsChoice (v : Visit) : Prop := ∃ branches, v.element = .disjunction branches

/-- The edge is built at a placeholder: it is there when the target has been assembled, and was not
before. -/
def BuiltInTarget (read : StateId → FirstSet → Assemble StateId) (visits : List Visit)
    (s : StateId) (e : Edge) : Prop :=
  ∃ v ∈ visits, v.element = .placeholder ∧ ∃ t σ₁, Yields (read v.state v.follow) v.assembly t σ₁ ∧
    e ∉ v.assembly.automaton.edgesOf s ∧ e ∈ σ₁.automaton.edgesOf s

/-- The arc leads to a state that was created for the target or was not. It carries a transform if
that is so and it reads a character. -/
structure LeadsOn (a : Automaton) (inTarget : Bool) (b : Arc) : Prop where
  origin : a.origin? b.target = some inTarget
  reject_lt : Automaton.reject < b.target
  carries : b.transform.isSome = (inTarget && b.symbol.char?.isSome)

/-- What a state looks like that is not the last one. With `inside`, all that it leads to is part of
the target; otherwise just what is built at a placeholder. -/
structure Shapely (inside : Bool) (read : StateId → FirstSet → Assemble StateId)
    (visits : List Visit) (a : Automaton) (s : StateId) : Prop where
  not_final : (a.view s).isFinal = false
  arc : ∀ b ∈ (a.view s).arcs,
    (b.target = Automaton.reject ∧ b.transform = none ∧ ∃ v ∈ visits, v.IsChoice ∧ v.state = s) ∨
    ∃ inTarget, LeadsOn a inTarget b ∧ (inside = true → inTarget = true) ∧
      (inTarget = true → inside = true ∨ BuiltInTarget read visits s ⟨b.symbol, b.target⟩)
  beside : ∀ b ∈ (a.view s).arcs, b.target = Automaton.reject →
    ∀ c ∈ (a.view s).arcs, c.target = Automaton.reject ∨ c.symbol = .lambda
  deterministic : (a.view s).arcs.Pairwise fun b c => b.symbol = c.symbol → b.symbol = .lambda
  default_last : (a.view s).default ≠ none → ∃ bs t, (a.view s).arcs = bs ++ [silent t] ∧
    ∀ b ∈ bs, b.symbol.char?.isSome = true

section Shapely

variable {a : Automaton} {s t : StateId} {inside : Bool}
  {read : StateId → FirstSet → Assemble StateId} {visits visits' : List Visit} {b : Arc}

theorem BuiltInTarget.mono {e : Edge} (hsub : visits ⊆ visits')
    (h : BuiltInTarget read visits s e) : BuiltInTarget read visits' s e := by
  obtain ⟨v, hv, hbuilt⟩ := h
  exact ⟨v, hsub hv, hbuilt⟩

theorem Shapely.mono (hsub : visits ⊆ visits') (h : Shapely inside read visits a s) :
    Shapely inside read visits' a s where
  not_final := h.not_final
  arc b hb := by
    rcases h.arc b hb with ⟨ht, hbare, v, hv, hchoice⟩ | ⟨inTarget, hlead, hinside, hbuilt⟩
    · exact .inl ⟨ht, hbare, v, hsub hv, hchoice⟩
    · exact .inr ⟨inTarget, hlead, hinside, fun h => (hbuilt h).imp_right (·.mono hsub)⟩
  beside := h.beside
  deterministic := h.deterministic
  default_last := h.default_last

/-- A state of the target, seen from outside: all its arcs are built at a placeholder. -/
theorem Shapely.outside (hsub : visits ⊆ visits')
    (hbuilt : ∀ b ∈ (a.view s).arcs, BuiltInTarget read visits' s ⟨b.symbol, b.target⟩)
    (h : Shapely true read visits a s) : Shapely false read visits' a s where
  not_final := h.not_final
  arc b hb := by
    rcases (h.mono hsub).arc b hb with hforbids | ⟨inTarget, hlead, -, -⟩
    · exact .inl hforbids
    · exact .inr ⟨inTarget, hlead, fun hfalse => absurd hfalse Bool.false_ne_true,
        fun _ => .inr (hbuilt b hb)⟩
  beside := h.beside
  deterministic := h.deterministic
  default_last := h.default_last

/-- A silent arc to a state created with the others. -/
theorem leadsOn_silent (horigin : a.origin? t = some inside) (hlt : Automaton.reject < t) :
    LeadsOn a inside (silent t) :=
  ⟨horigin, hlt, by simp [Symbol.char?]⟩

theorem LeadsOn.arc (h : LeadsOn a inside b) : ∃ inTarget, LeadsOn a inTarget b ∧
    (inside = true → inTarget = true) ∧
      (inTarget = true → inside = true ∨ BuiltInTarget read visits s ⟨b.symbol, b.target⟩) :=
  ⟨inside, h, id, .inl⟩

theorem LeadsOn.target_ne (h : LeadsOn a inside b) : b.target ≠ Automaton.reject :=
  Nat.ne_of_gt h.reject_lt

theorem shapely_blank (h : a.view s = {}) : Shapely inside read visits a s := by
  constructor <;> simp [h]

theorem shapely_single (h : a.view s = { arcs := [b] }) (hlead : LeadsOn a inside b) :
    Shapely inside read visits a s where
  not_final := by rw [h]
  arc := by
    rw [h]
    exact List.forall_mem_singleton.mpr (.inr hlead.arc)
  beside := by
    rw [h]
    exact List.forall_mem_singleton.mpr fun ht => absurd ht hlead.target_ne
  deterministic := by
    rw [h]
    exact List.pairwise_singleton ..
  default_last := by
    rw [h]
    exact absurd rfl

/-- A state with arcs that read different characters, and perhaps a silent one behind them. -/
theorem shapely_reads {bs : List Arc} {exit : Option StateId} {default : Option TransformId}
    (h : a.view s = { arcs := bs ++ (exit.map silent).toList, default })
    (hread : ∀ b ∈ bs, ∃ c, b.symbol = .char c)
    (hdistinct : bs.Pairwise fun b c => b.symbol ≠ c.symbol)
    (hlead : ∀ b ∈ bs ++ (exit.map silent).toList, LeadsOn a inside b)
    (hdefault : exit = none → default = none) : Shapely inside read visits a s where
  not_final := by rw [h]
  arc := by
    rw [h]
    exact fun b hb => .inr (hlead b hb).arc
  beside := by
    rw [h]
    exact fun b hb ht => absurd ht (hlead b hb).target_ne
  deterministic := by
    rw [h, List.pairwise_append]
    refine ⟨hdistinct.imp fun hne heq => absurd heq hne, ?_, fun b hb c hc heq => ?_⟩
    · cases exit with
      | none => exact .nil
      | some t => exact List.pairwise_singleton ..
    · obtain ⟨t, -, rfl⟩ := Option.map_eq_some_iff.mp (Option.mem_toList.mp hc)
      exact heq
  default_last := by
    rw [h]
    intro hne
    cases exit with
    | none => exact absurd (hdefault rfl) hne
    | some t => exact ⟨bs, t, rfl, fun b hb => by
        obtain ⟨c, hc⟩ := hread b hb
        rw [hc]
        rfl⟩

/-- A state that passes to others silently, and may forbid symbols if it is that of a choice. -/
theorem shapely_forks {forks : List StateId} {symbols : List Symbol}
    (h : a.view s = { arcs := (forks.map silent ++ symbols.map reject).foldl Arc.addTo [] })
    (hforks : ∀ f ∈ forks, LeadsOn a inside (silent f))
    (hsymbols : symbols ≠ [] → ∃ v ∈ visits, v.IsChoice ∧ v.state = s) :
    Shapely inside read visits a s := by
  have hmem {b : Arc} (hb : b ∈ (a.view s).arcs) :
      (∃ f ∈ forks, b = silent f) ∨ ∃ c ∈ symbols, b = reject c := by
    rw [h] at hb
    exact mem_forks.mp hb
  refine ⟨by rw [h], fun b hb => ?_, fun _ _ _ c hc => ?_, ?_, ?_⟩
  · rcases hmem hb with ⟨f, hf, rfl⟩ | ⟨c, hc, rfl⟩
    · exact .inr (hforks f hf).arc
    · exact .inl ⟨rfl, rfl, hsymbols (List.ne_nil_of_mem hc)⟩
  · rcases hmem hc with ⟨_, _, rfl⟩ | ⟨_, _, rfl⟩
    · exact .inr rfl
    · exact .inl rfl
  · have hnodup : (a.view s).arcs.Nodup := by
      rw [h]
      exact Arc.nodup_foldl_addTo .nil
    refine hnodup.pairwise_of_forall_ne fun b hb c hc hne heq => ?_
    rcases hmem hb with ⟨_, _, rfl⟩ | ⟨_, _, rfl⟩
    · rfl
    · rcases hmem hc with ⟨_, _, rfl⟩ | ⟨_, _, rfl⟩
      · exact heq
      · exact absurd (congrArg reject heq) hne
  · rw [h]
    exact absurd rfl

theorem settles_of_forks {forks : List StateId} {symbols : List Symbol}
    (h : a.view s = { arcs := (forks.map silent ++ symbols.map reject).foldl Arc.addTo [] })
    (hstop : a.Settles Automaton.reject) (hforks : ∀ f ∈ forks, a.Settles f) : a.Settles s := by
  refine Automaton.settles_of_arcs h fun b hb => ?_
  rcases mem_forks.mp hb with ⟨f, hf, rfl⟩ | ⟨_, -, rfl⟩
  · exact hforks f hf
  · exact hstop

end Shapely

/-! ## What assembling does -/

/-- What the states are like after something has been assembled from `s` to `t`: those that were
blank before are blank or shapely, and settle if `t` does. -/
structure Shaped (inside : Bool) (read : StateId → FirstSet → Assemble StateId)
    (visits : List Visit) (σ : Assembly) (s : StateId) (σ₁ : Assembly) (t : StateId)
    (a : Automaton) : Prop where
  shapely {x : StateId} : σ.view x = {} → σ₁.view x = {} ∨ Shapely inside read visits a x
  settles {x : StateId} : a.Settles Automaton.reject → a.Settles t → σ.view x = {} →
    σ₁.view x = {} ∨ a.Settles x
  start : a.Settles Automaton.reject → a.Settles t → a.Settles s

/-- The same for the states beside `s`, if `s` has got arcs to the states `heads`. -/
structure ShapedBeside (inside : Bool) (read : StateId → FirstSet → Assemble StateId)
    (visits : List Visit) (σ : Assembly) (s : StateId) (σ₁ : Assembly) (t : StateId)
    (heads : List StateId) (a : Automaton) : Prop where
  shapely {x : StateId} : x ≠ s → σ.view x = {} →
    σ₁.view x = {} ∨ Shapely inside read visits a x
  settles {x : StateId} : a.Settles Automaton.reject → a.Settles t → x ≠ s → σ.view x = {} →
    σ₁.view x = {} ∨ a.Settles x
  heads : a.Settles Automaton.reject → a.Settles t → ∀ f ∈ heads, a.Settles f

section Shaped

variable {a : Automaton} {s t mid fork : StateId} {inside : Bool}
  {read : StateId → FirstSet → Assemble StateId} {visits visits' : List Visit}
  {σ σ₁ σ₂ : Assembly} {v : View} {heads heads' : List StateId}

theorem Shaped.mono (hsub : visits ⊆ visits') (h : Shaped inside read visits σ s σ₁ t a) :
    Shaped inside read visits' σ s σ₁ t a :=
  ⟨fun hx => (h.shapely hx).imp_right (·.mono hsub), h.settles, h.start⟩

theorem Shaped.trans (h : Shaped inside read visits σ s σ₁ mid a)
    (h' : Shaped inside read visits σ₁ mid σ₂ t a) : Shaped inside read visits σ s σ₂ t a where
  shapely hx := (h.shapely hx).elim h'.shapely .inr
  settles hstop ht hx := (h.settles hstop (h'.start hstop ht) hx).elim (h'.settles hstop ht) .inr
  start hstop ht := h.start hstop (h'.start hstop ht)

theorem Shaped.of_quiet (h : Quiet σ σ₁) : Shaped inside read visits σ s σ₁ s a :=
  ⟨fun hx => .inl ((h.view_eq _).trans hx), fun _ _ hx => .inl ((h.view_eq _).trans hx),
    fun _ ht => ht⟩

namespace ShapedBeside

theorem refl : ShapedBeside inside read visits σ s σ t [] a :=
  ⟨fun _ => .inl, fun _ _ _ => .inl, nofun⟩

/-- An arc to `t` itself, where nothing new is in between. -/
theorem direct : ShapedBeside inside read visits σ s σ t [t] a :=
  ⟨fun _ => .inl, fun _ _ _ => .inl, fun _ ht => List.forall_mem_singleton.mpr ht⟩

theorem mono (hsub : visits ⊆ visits') (h : ShapedBeside inside read visits σ s σ₁ t heads a) :
    ShapedBeside inside read visits' σ s σ₁ t heads a :=
  ⟨fun hne hx => (h.shapely hne hx).imp_right (·.mono hsub), h.settles, h.heads⟩

theorem trans (h : ShapedBeside inside read visits σ s σ₁ t heads a)
    (h' : ShapedBeside inside read visits σ₁ s σ₂ t heads' a) :
    ShapedBeside inside read visits σ s σ₂ t (heads ++ heads') a where
  shapely hne hx := (h.shapely hne hx).elim (h'.shapely hne) .inr
  settles hstop ht hne hx := (h.settles hstop ht hne hx).elim (h'.settles hstop ht hne) .inr
  heads hstop ht := List.forall_mem_append.mpr ⟨h.heads hstop ht, h'.heads hstop ht⟩

theorem quiet_left (hquiet : Quiet σ σ₁)
    (h : ShapedBeside inside read visits σ₁ s σ₂ t heads a) :
    ShapedBeside inside read visits σ s σ₂ t heads a :=
  ⟨fun hne hx => h.shapely hne ((hquiet.view_eq _).trans hx),
    fun hstop ht hne hx => h.settles hstop ht hne ((hquiet.view_eq _).trans hx), h.heads⟩

/-- Arcs are added to `s` itself. -/
theorem rewrites_right (h : ShapedBeside inside read visits σ s σ₁ t heads a)
    (hs : Rewrites σ₁ s v σ₂) : ShapedBeside inside read visits σ s σ₂ t heads a where
  shapely hne hx := (h.shapely hne hx).imp_left (hs.view_of_ne hne).trans
  settles hstop ht hne hx := (h.settles hstop ht hne hx).imp_left (hs.view_of_ne hne).trans
  heads := h.heads

/-- The state `s` has got all its arcs. -/
theorem shaped (h : ShapedBeside inside read visits σ s σ₁ t heads a)
    (hs : Shapely inside read visits a s)
    (hsettles : a.Settles Automaton.reject → a.Settles t → (∀ f ∈ heads, a.Settles f) →
      a.Settles s) : Shaped inside read visits σ s σ₁ t a where
  shapely {x} hx := by
    by_cases hne : x = s
    · exact .inr (hne ▸ hs)
    · exact h.shapely hne hx
  settles {x} hstop ht hx := by
    by_cases hne : x = s
    · exact .inr (hne ▸ hsettles hstop ht (h.heads hstop ht))
    · exact h.settles hstop ht hne hx
  start hstop ht := hsettles hstop ht (h.heads hstop ht)

end ShapedBeside

/-- From `s` an arc goes to `fork`, where something begins. -/
theorem Shaped.beside (hs : Rewrites σ s v σ₁) (h : Shaped inside read visits σ₁ fork σ₂ t a) :
    ShapedBeside inside read visits σ s σ₂ t [fork] a where
  shapely hne hx := h.shapely ((hs.view_of_ne hne).trans hx)
  settles hstop ht hne hx := h.settles hstop ht ((hs.view_of_ne hne).trans hx)
  heads hstop ht := List.forall_mem_singleton.mpr (h.start hstop ht)

/-- A blank state has got all its arcs at once. -/
theorem shaped_rewrites (hs : Rewrites σ s v σ₁) (hshapely : Shapely inside read visits a s)
    (hsettles : a.Settles Automaton.reject → a.Settles t → a.Settles s) :
    Shaped inside read visits σ s σ₁ t a :=
  (ShapedBeside.refl.rewrites_right hs).shaped hshapely fun hstop ht _ => hsettles hstop ht

end Shaped

end SoundChange
