import SoundChange.Proofs.Rule.Registered
import SoundChange.Proofs.Rule.Shape

/-!
# The automaton of a rule is well-shaped

`Rule.WellShaped` collects what the runtime relies on: a transform is found by the state and symbol
of an edge, so there must not be two such edges; a default transform stands for the silent edge of
its state, so there must be just one. `Rule.automaton_wellShaped` says that every automaton of a
rule is so. It is derived from `Outlined`, what is known of each state and of each visit once all
has been assembled.
-/

namespace SoundChange

open Assembly Layout

namespace Assembly

variable {a : Automaton} {i : Inventory} {rule : Rule} {strip : Bool}

/-! ## The target at a placeholder -/

section Target

variable {σ σ₁ : Assembly} {s t x : StateId} {follow : FirstSet} {c : Setting}
  {read : StateId → FirstSet → Assemble StateId} {within : List Visit} {P : Automaton → Prop}

/-- What is assembled for a placeholder, all of it in the target. -/
theorem stands_target (hs : Blank σ s) (hlt : Automaton.reject < σ.automaton.size)
    (before after : Language Symbol) (h : Yields (rule.readTarget i s follow) σ t σ₁) :
    ∃ within, rule.TargetVisits i follow before after s σ within ∧
      Lays σ s σ₁ t (Stands (targetSetting i rule) true (rule.readTarget i) within σ s σ₁ t) := by
  obtain ⟨ms, halign, hread⟩ := yields_readTarget.mp h
  have hnone : StandsTarget (targetSetting i rule) 1 (fun _ _ _ _ _ visits => visits = []) true
      (rule.readTarget i) := by
    intro _ _ _ _ _ _ _ hfalse
    cases hfalse
  have hfits : Emission.Fits true ms rule.target := Emission.length_align halign
  obtain ⟨within, hwithin, hlays⟩ :=
    stands_readSequence (T := fun _ _ s t n n' => t = s ∧ n' = n) lays_noTarget hnone rule.target
      hfits hs hlt hread
  exact ⟨within, ⟨ms, halign, hwithin⟩, hlays⟩

/-- A state that was blank before the target is blank behind it, or it is shapely and has got all
that it has in the target. -/
theorem Stands.blank_or_shapely (h : Stands c true read within σ s σ₁ t a)
    (hlays : Lays σ s σ₁ t P) (hkeeps : Keeps a σ₁ (Between σ s σ₁ t)) (hx : σ.view x = {}) :
    σ₁.view x = {} ∨ Shapely true read within a x ∧ a.view x = σ₁.view x :=
  (hlays.blank_or_between hx).elim .inl fun hbetween =>
    (h.shaped.shapely hx).imp_right fun hshapely => ⟨hshapely, hkeeps.view_eq hbetween⟩

/-- What is assembled for a placeholder belongs to the target. -/
theorem stands_readTarget : StandsTarget (environmentSetting i rule) (rule.targetLanguage i)
    (rule.TargetVisits i) false (rule.readTarget i) := by
  intro σ σ₁ s t follow before after _ hs hlt h
  obtain ⟨within, hwithin, hlays⟩ := stands_target hs hlt before after h
  let v : Visit := ⟨.placeholder, s, σ, follow, before, after, rule.targetLanguage i⟩
  refine ⟨within, hwithin, hlays.keeping.mono fun a ⟨hstands, hkeeps⟩ =>
    ⟨⟨fun {x} hx => ?_, hstands.shaped.settles, hstands.shaped.start⟩,
      List.forall_mem_cons.mpr ⟨⟨nofun, ?_⟩, hstands.met⟩⟩⟩
  · refine (hstands.blank_or_shapely hlays hkeeps hx).imp_right fun ⟨hshapely, heq⟩ =>
      hshapely.outside (List.subset_cons_self ..) fun b hb => ?_
    refine ⟨v, List.mem_cons_self .., rfl, t, σ₁, h, ?_, ?_⟩
    · rw [Automaton.edgesOf_of_view (show v.assembly.automaton.view x = {} from hx)]
      exact List.not_mem_nil
    · rw [Automaton.edgesOf_of_view heq.symm]
      exact List.mem_map_of_mem hb
  · intro t' x σ' e _ h' hbefore hafter
    obtain ⟨rfl, rfl⟩ := h.unique h'
    rcases hstands.blank_or_shapely hlays hkeeps (hlays.view_of_edge hs hbefore hafter) with
      hblank | ⟨hshapely, heq⟩
    · rw [Automaton.edgesOf_of_view hblank] at hafter
      cases hafter
    · rw [Automaton.edgesOf_of_view heq.symm] at hafter
      obtain ⟨b, hb, rfl⟩ := List.mem_map.mp hafter
      refine ⟨Automaton.mem_edgesOf_iff.mpr ⟨b, hb, rfl, rfl⟩, ?_⟩
      rcases hshapely.arc b hb with ⟨ht, -⟩ | ⟨inTarget, hlead, hinside, -⟩
      · exact .inl ht
      · exact .inr (hinside rfl ▸ hlead.origin)

end Target

/-! ## The whole automaton -/

/-- What is known of every state of the automaton `a` and of every visit: `last` is the final state,
and the others are shapely. -/
structure Outlined (i : Inventory) (rule : Rule) (visits : List Visit) (last : StateId)
    (a : Automaton) : Prop where
  tidy : a.Tidy
  reject_lt : Automaton.reject < a.size
  view_last : a.view last = { isFinal := true }
  view_reject : a.view Automaton.reject = {}
  shapely {s : StateId} : s ≠ last → Shapely false (rule.readTarget i) visits a s
  settles (s : StateId) : a.Settles s
  met : ∀ v ∈ visits, Met i (FirstSet.ofTarget i rule.target) (rule.readTarget i) a v

theorem outlined_of_automaton (h : rule.automaton i strip = .ok a) :
    ∃ visits last, rule.Visits i strip visits ∧ Outlined i rule visits last a := by
  obtain ⟨last, σ₁, hsequence, rfl⟩ := yields_of_automaton h
  obtain ⟨visits, hvisits, hlays⟩ := stands_readSequence lays_readTarget stands_readTarget
    (rule.environmentFor strip) Emission.fits_nil blank_start (by decide) hsequence
  have hfinishes := hlays.finishes
  have hstands := hfinishes.laid hlays
  have hstop := Automaton.settles_of_arcs hfinishes.view_reject nofun
  have hend := Automaton.settles_of_arcs hfinishes.view_last nofun
  refine ⟨visits, last, hvisits, hfinishes.tidy, hfinishes.reject_lt, hfinishes.view_last,
    hfinishes.view_reject, fun {x} hx => ?_, fun x => ?_, hstands.met⟩
  · refine (hstands.shaped.shapely Automaton.view_empty).elim (fun hblank => ?_) id
    exact shapely_blank ((hfinishes.keeps.view_eq hx).trans hblank)
  · by_cases hx : x = last
    · exact hx ▸ hend
    · refine (hstands.shaped.settles hstop hend Automaton.view_empty).elim (fun hblank => ?_) id
      exact Automaton.settles_of_arcs ((hfinishes.keeps.view_eq hx).trans hblank) nofun

/-- The only edge of a symbol, where edges of the same symbol are silent. -/
theorem filter_symbol_eq {es : List Edge} {e : Edge} (hc : e.symbol ≠ .lambda)
    (hes : es.Pairwise fun e f => e.symbol = f.symbol → e.symbol = .lambda) (he : e ∈ es) :
    es.filter (·.symbol = e.symbol) = [e] := by
  induction es with
  | nil => cases he
  | cons f es ih =>
    obtain ⟨hf, hes⟩ := List.pairwise_cons.mp hes
    rcases List.mem_cons.mp he with rfl | he
    · have hnone : es.filter (·.symbol = e.symbol) = [] := by
        refine List.filter_eq_nil_iff.mpr fun g hg heq => hc (hf g hg ?_)
        exact (of_decide_eq_true heq).symm
      rw [List.filter_cons_of_pos (by simp), hnone]
    · have hne : f.symbol ≠ e.symbol := fun heq => hc (heq ▸ hf e he heq)
      rw [List.filter_cons_of_neg (by simpa using hne), ih hes he]

namespace Outlined

variable {visits : List Visit} {last s t : StateId} {c : Symbol} {e : Edge} {n : TransformId}

theorem edgesOf_last (h : Outlined i rule visits last a) : a.edgesOf last = [] :=
  Automaton.edgesOf_of_view h.view_last

theorem shapely_of_mem (h : Outlined i rule visits last a) (he : e ∈ a.edgesOf s) :
    Shapely false (rule.readTarget i) visits a s := by
  refine h.shapely fun hs => ?_
  rw [hs, h.edgesOf_last] at he
  cases he

/-- An edge either forbids its symbol in the state of a choice, or it leads on. -/
theorem edge (h : Outlined i rule visits last a) (he : e ∈ a.edgesOf s) :
    (e.target = Automaton.reject ∧ a.attached? s e.symbol = none ∧
      ∃ v ∈ visits, v.IsChoice ∧ v.state = s) ∨
    ∃ inTarget, a.origin? e.target = some inTarget ∧ Automaton.reject < e.target ∧
      (a.attached? s e.symbol).isSome = (inTarget && e.symbol.char?.isSome) ∧
      (inTarget = true ↔ BuiltInTarget (rule.readTarget i) visits s e) := by
  have hmem : (⟨e.symbol, e.target, a.attached? s e.symbol⟩ : Arc) ∈ (a.view s).arcs :=
    Automaton.mem_arcs.mpr ⟨he, rfl⟩
  refine ((h.shapely_of_mem he).arc _ hmem).imp_right ?_
  rintro ⟨inTarget, hlead, -, hbuilt⟩
  refine ⟨inTarget, hlead.origin, hlead.reject_lt, hlead.carries, fun hin => ?_, fun hin => ?_⟩
  · exact (hbuilt hin).resolve_left Bool.false_ne_true
  · obtain ⟨v, hv, hplace, t, σ₁, hyields, hbefore, hafter⟩ := hin
    rcases ((h.met v hv).place hplace hyields hbefore hafter).2 with ht | ht
    · exact absurd ht hlead.target_ne
    · exact Option.some.inj (hlead.origin.symm.trans ht)

theorem isFinal_iff (h : Outlined i rule visits last a) : a.isFinal s = true ↔ s = last := by
  refine ⟨fun hfinal => by_contra fun hs => ?_, ?_⟩
  · exact Bool.false_ne_true ((h.shapely hs).not_final.symm.trans hfinal)
  · rintro rfl
    exact congrArg View.isFinal h.view_last

theorem joined (h : Outlined i rule visits last a) (hst : a.Joins s t) :
    s < a.size ∧ t < a.size := by
  obtain ⟨e, he, rfl⟩ := hst
  refine ⟨Nat.not_le.mp fun hs => ?_, ?_⟩
  · rw [Automaton.edgesOf_of_view (h.tidy.view_unknown hs)] at he
    cases he
  · rcases h.edge he with ⟨ht, -⟩ | ⟨_, horigin, -⟩
    · exact ht ▸ h.reject_lt
    · exact Automaton.lt_size_of_origin horigin

theorem not_joins_start (h : Outlined i rule visits last a) : ¬ a.Joins s Automaton.start := by
  rintro ⟨e, he, ht⟩
  rcases h.edge he with ⟨hreject, -⟩ | ⟨_, -, hlt, -⟩
  · exact absurd (hreject.symm.trans ht) (by decide)
  · rw [ht] at hlt
    exact absurd hlt (by decide)

theorem beside_reject (h : Outlined i rule visits last a) (hs : a.Joins s Automaton.reject)
    (he : e ∈ a.edgesOf s) : e.target = Automaton.reject ∨ e.symbol = .lambda := by
  obtain ⟨f, hf, ht⟩ := hs
  obtain ⟨b, hb, rfl⟩ := Automaton.exists_mem_arcs hf
  obtain ⟨d, hd, rfl⟩ := Automaton.exists_mem_arcs he
  exact (h.shapely_of_mem hf).beside b hb ht d hd

theorem pairwise_edgesOf (h : Outlined i rule visits last a) (s : StateId) :
    (a.edgesOf s).Pairwise fun e f => e.symbol = f.symbol → e.symbol = .lambda := by
  by_cases hs : s = last
  · rw [hs, h.edgesOf_last]
    exact .nil
  · rw [Automaton.edgesOf_of_view rfl, List.pairwise_map]
    exact (h.shapely hs).deterministic

theorem edge_of_attached (h : Outlined i rule visits last a) (hn : a.attached? s c = some n) :
    ∃ t, (a.edgesOf s).filter (·.symbol = c) = [⟨c, t⟩] ∧ t ≠ Automaton.reject ∧
      a.origin? t = some true := by
  obtain ⟨e, he, rfl⟩ := h.tidy.edge_of_attached hn
  rcases h.edge he with ⟨-, hnone, -⟩ | ⟨inTarget, horigin, hlt, hcarries, -⟩
  · cases hn.symm.trans hnone
  · rw [hn, Option.isSome_some, eq_comm, Bool.and_eq_true] at hcarries
    have hc : e.symbol ≠ .lambda := by
      intro heq
      rw [heq] at hcarries
      cases hcarries.2
    exact ⟨e.target, filter_symbol_eq hc (h.pairwise_edgesOf s) he, Nat.ne_of_gt hlt,
      hcarries.1 ▸ horigin⟩

theorem isSome_attached_iff (h : Outlined i rule visits last a) (he : e ∈ a.edgesOf s) :
    (a.attached? s e.symbol).isSome = true ↔ e.symbol.char?.isSome = true ∧
      e.target ≠ Automaton.reject ∧ BuiltInTarget (rule.readTarget i) visits s e := by
  rcases h.edge he with ⟨ht, hnone, -⟩ | ⟨inTarget, -, hlt, hcarries, hbuilt⟩
  · simp [ht, hnone]
  · rw [hcarries, Bool.and_eq_true, hbuilt]
    exact ⟨fun ⟨hin, hc⟩ => ⟨hc, Nat.ne_of_gt hlt, hin⟩, fun ⟨hc, _, hin⟩ => ⟨hin, hc⟩⟩

theorem edgesOf_of_default (h : Outlined i rule visits last a) (hn : a.default? s = some n) :
    ∃ es t, a.edgesOf s = es ++ [⟨.lambda, t⟩] ∧ ∀ e ∈ es, e.symbol.char?.isSome = true := by
  have hs : s ≠ last := by
    rintro rfl
    cases hn.symm.trans (congrArg View.default h.view_last)
  have hdefault : (a.view s).default ≠ none := fun hnone => nomatch hn.symm.trans hnone
  obtain ⟨bs, t, harcs, hbs⟩ := (h.shapely hs).default_last hdefault
  refine ⟨bs.map fun b => ⟨b.symbol, b.target⟩, t, ?_, List.forall_mem_map.mpr hbs⟩
  rw [Automaton.edgesOf_of_view rfl, harcs, List.map_append, List.map_singleton]

end Outlined

end Assembly

/-- The shape of the automaton of a rule, of which `visits` are the visits. An edge to `reject`
only forbids a character and reads none, so it carries nothing, also in the target. -/
structure Rule.WellShaped (i : Inventory) (rule : Rule) (visits : List Visit) (a : Automaton) :
    Prop where
  acyclic (s : StateId) : ¬ Relation.TransGen a.Joins s s
  joined {s t : StateId} : a.Joins s t → s < a.size ∧ t < a.size
  final_once : ∃ last, a.edgesOf last = [] ∧ ∀ s, a.isFinal s = true ↔ s = last
  start_first (s : StateId) : ¬ a.Joins s Automaton.start
  reject_dead : a.isFinal Automaton.reject = false ∧ a.edgesOf Automaton.reject = []
  beside_reject {s : StateId} : a.Joins s Automaton.reject →
    ∀ e ∈ a.edgesOf s, e.target = Automaton.reject ∨ e.symbol = .lambda
  deterministic (s : StateId) :
    (a.edgesOf s).Pairwise fun e f => e.symbol = f.symbol → e.symbol = .lambda
  /-- A transform is attached to one edge, which leads on into the target. -/
  attached {s : StateId} {c : Symbol} {n : TransformId} : a.attached? s c = some n →
    ∃ t, (a.edgesOf s).filter (·.symbol = c) = [⟨c, t⟩] ∧ t ≠ Automaton.reject ∧
      a.origin? t = some true
  /-- The edges with a transform. -/
  carries {s : StateId} {e : Edge} : e ∈ a.edgesOf s →
    ((a.attached? s e.symbol).isSome = true ↔ e.symbol.char?.isSome = true ∧
      e.target ≠ Automaton.reject ∧ BuiltInTarget (rule.readTarget i) visits s e)
  /-- A default transform is that of one silent edge, behind all that read a character. -/
  default_last {s : StateId} {n : TransformId} : a.default? s = some n → ∃ es t,
    a.edgesOf s = es ++ [⟨.lambda, t⟩] ∧ ∀ e ∈ es, e.symbol.char?.isSome = true
  registered : a.Registered

theorem Assembly.Outlined.wellShaped {i : Inventory} {rule : Rule} {visits : List Visit}
    {last : StateId} {a : Automaton} (h : Outlined i rule visits last a)
    (hregistered : a.Registered) : rule.WellShaped i visits a where
  acyclic s := (h.settles s).not_cycle
  joined := h.joined
  final_once := ⟨last, h.edgesOf_last, fun _ => h.isFinal_iff⟩
  start_first _ := h.not_joins_start
  reject_dead := ⟨congrArg View.isFinal h.view_reject, Automaton.edgesOf_of_view h.view_reject⟩
  beside_reject hs _ := h.beside_reject hs
  deterministic := h.pairwise_edgesOf
  attached := h.edge_of_attached
  carries := h.isSome_attached_iff
  default_last := h.edgesOf_of_default
  registered := hregistered

/-- The automaton of a rule is well-shaped. -/
theorem Rule.automaton_wellShaped {i : Inventory} {rule : Rule} {strip : Bool} {a : Automaton}
    (h : rule.automaton i strip = .ok a) :
    ∃ visits, rule.Visits i strip visits ∧ rule.WellShaped i visits a := by
  obtain ⟨visits, last, hvisits, houtlined⟩ := outlined_of_automaton h
  exact ⟨visits, hvisits, houtlined.wellShaped (registered_of_automaton h)⟩

/-- The automaton of `a/o/(k|#)_` has an edge on `a` that is built in the target, and one on `k`
that is not. -/
theorem Rule.rounding_wellShaped : ∃ a visits, rounding.automaton {} true = .ok a ∧
    rounding.Visits {} true visits ∧ rounding.WellShaped {} visits a ∧
    BuiltInTarget (rounding.readTarget {}) visits 2 ⟨.char 'a', 7⟩ ∧
    ⟨.char 'k', 4⟩ ∈ a.edgesOf 3 ∧
    ¬ BuiltInTarget (rounding.readTarget {}) visits 3 ⟨.char 'k', 4⟩ := by
  obtain ⟨a, ha⟩ : ∃ a, rounding.automaton {} true = .ok a := exists_ok (by decide +kernel)
  have hvalue : (rounding.automaton {} true).map (fun a =>
      (a.edgesOf 2, (a.attached? 2 (.char 'a')).isSome, a.edgesOf 3,
        (a.attached? 3 (.char 'k')).isSome)) =
      .ok ([⟨.char 'a', 7⟩], true, [⟨.char 'k', 4⟩], false) := by decide +kernel
  rw [ha] at hvalue
  obtain ⟨htwo, hvalue⟩ := Prod.mk.inj (Except.ok.inj hvalue)
  obtain ⟨ha₂, hvalue⟩ := Prod.mk.inj hvalue
  obtain ⟨hthree, hk⟩ := Prod.mk.inj hvalue
  obtain ⟨visits, hvisits, hshaped⟩ := automaton_wellShaped ha
  have hedge : ⟨.char 'k', 4⟩ ∈ a.edgesOf 3 := hthree ▸ List.mem_singleton_self _
  refine ⟨a, visits, ha, hvisits, hshaped, ?_, hedge, fun hbuilt => ?_⟩
  · exact ((hshaped.carries (htwo ▸ List.mem_singleton_self _)).mp ha₂).2.2
  · exact Bool.false_ne_true (hk.symm.trans ((hshaped.carries hedge).mpr ⟨rfl, by decide, hbuilt⟩))

end SoundChange
