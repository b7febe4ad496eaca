import SoundChange.Proofs.Rule.FirstExact
import SoundChange.Proofs.Rule.WellShaped
import SoundChange.Proofs.Statement.Grammatical

/-!
# What a choice forbids

Where a choice begins that must read something, the symbols are forbidden that can come next once
the choice is over and that begin none of its branches. What can come next depends on all that
follows at every enclosing level and reaches the choice as a first set. `Fits` says that this is
exact for what follows; it is kept on the way into groups, past elements and into the target
(`exact_visits`), so that it holds of every visit (`Rule.Visits.exact`). The result is
`Rule.reject_edges`.
-/

namespace SoundChange

open Assembly Layout

open FirstSet (Told)

variable {W L M P A B : Language Symbol} {f g : FirstSet} {i : Inventory} {c : Setting}
  {m : Option Emission} {ms : List Emission} {target : Visit.Plan}

/-! ## What is matched before and after a visit -/

/-- A part matches `L` where `B` is matched before it and `A` after it: all is matched by `W` when
it is put together, nothing of it is impossible, and `f` is just how what comes after begins. -/
structure Fits (W L : Language Symbol) (f : FirstSet) (B A : Language Symbol) : Prop where
  exact : f.Exact A
  can_before : ∃ u, u ∈ B
  can_after : ∃ w, w ∈ A
  mem {u v w : List Symbol} : u ∈ B → v ∈ L → w ∈ A → u ++ v ++ w ∈ W

namespace Fits

theorem mono (h : Fits W L f B A) (hsub : ∀ w ∈ M, w ∈ L) : Fits W M f B A :=
  ⟨h.exact, h.can_before, h.can_after, fun hu hv hw => h.mem hu (hsub _ hv) hw⟩

/-- The first of two parts has the second one behind it. -/
theorem left (h : Fits W (L * M) f B A) (hg : g.Exact M) (hM : ∃ w, w ∈ M) :
    Fits W L (g.followedBy f) B (M * A) where
  exact := hg.followedBy h.exact h.can_after
  can_before := h.can_before
  can_after := by
    obtain ⟨v, hv⟩ := hM
    obtain ⟨w, hw⟩ := h.can_after
    exact ⟨v ++ w, Language.append_mem_mul hv hw⟩
  mem {u v w} hu hv hw := by
    obtain ⟨x, hx, y, hy, rfl⟩ := Language.mem_mul.mp hw
    have hall := h.mem hu (Language.append_mem_mul hv hx) hy
    simpa only [List.append_assoc] using hall

/-- The second of two parts has the first one before it. -/
theorem right (h : Fits W (L * M) f B A) (hL : ∃ w, w ∈ L) : Fits W M f (B * L) A where
  exact := h.exact
  can_before := by
    obtain ⟨u, hu⟩ := h.can_before
    obtain ⟨v, hv⟩ := hL
    exact ⟨u ++ v, Language.append_mem_mul hu hv⟩
  can_after := h.can_after
  mem {u v w} hu hv hw := by
    obtain ⟨x, hx, y, hy, rfl⟩ := Language.mem_mul.mp hu
    have hall := h.mem hx (Language.append_mem_mul hy hv) hw
    simpa only [List.append_assoc] using hall

end Fits

/-- A visit whose first set is exact, and that of what is in it too. -/
structure Visit.Exact (i : Inventory) (first : Except RuleError FirstSet) (W : Language Symbol)
    (v : Visit) : Prop where
  told : v.element.Every (Told i first v.place)
  fits : Fits W (v.element.language i v.place) v.follow v.before v.after

/-- The visits at a placeholder are exact. -/
def ExactTarget (i : Inventory) (first : Except RuleError FirstSet) (W P : Language Symbol)
    (target : Visit.Plan) : Prop :=
  ∀ follow before after s σ visits, Fits W P follow before after →
    target follow before after s σ visits → ∀ v ∈ visits, v.Exact i first W

theorem exists_mem_of_told {es : List Element} {first : Except RuleError FirstSet}
    (h : Element.EveryOf (Told i first P) es) : ∃ w, w ∈ Element.languageAll i P es :=
  Element.exists_mem_languageAll (h.imp fun _ he => he.admits)

mutual

theorem exact_visits (hT : ExactTarget c.inventory c.first W P target) :
    ∀ (e : Element) {m : Option Emission} {follow : FirstSet} {before after : Language Symbol}
      {s : StateId} {σ : Assembly} {visits : List Visit}, e.Every (Told c.inventory c.first P) →
      Fits W (e.language c.inventory P) follow before after →
      Visits c P target m follow before after e s σ visits →
      ∀ v ∈ visits, v.Exact c.inventory c.first W
  | .utterance _, _, _, _, _, _, _, _, _, _, h => by
    rw [show _ = [] from h]
    exact nofun
  | .set _, _, _, _, _, _, _, _, _, _, h => by
    rw [show _ = [] from h]
    exact nofun
  | .compound _, _, _, _, _, _, _, _, _, _, h => by
    rw [show _ = [] from h]
    exact nofun
  | .optional body, _, _, _, _, _, _, _, htold, hfits, h => by
    obtain ⟨_, _, _, _, -, -, h⟩ := h
    exact exact_visitsAll hT body htold.2 (hfits.mono fun _ => .inl) h
  | .disjunction branches, _, _, _, _, _, _, _, htold, hfits, h => by
    obtain ⟨_, _, within, -, h, rfl⟩ := h
    exact List.forall_mem_cons.mpr
      ⟨⟨htold, hfits⟩, exact_visitsAmong hT branches htold.2 hfits h⟩
  | .boundary _, _, _, _, _, _, _, _, _, _, h => by
    rw [show _ = [] from h]
    exact nofun
  | .placeholder, m, _, _, _, _, _, _, htold, hfits, h => by
    rw [Visits] at h
    split at h
    · rw [h]
      exact nofun
    · obtain ⟨within, h, rfl⟩ := h
      exact List.forall_mem_cons.mpr ⟨⟨htold, hfits⟩, hT _ _ _ _ _ _ hfits h⟩

theorem exact_visitsAll (hT : ExactTarget c.inventory c.first W P target) :
    ∀ (es : List Element) {ms : List Emission} {follow : FirstSet}
      {before after : Language Symbol} {s : StateId} {σ : Assembly} {visits : List Visit},
      Element.EveryOf (Told c.inventory c.first P) es →
      Fits W (Element.languageAll c.inventory P es) follow before after →
      VisitsAll c P target ms follow before after es s σ visits →
      ∀ v ∈ visits, v.Exact c.inventory c.first W
  | [], _, _, _, _, _, _, _, _, _, h => by
    rw [show _ = [] from h]
    exact nofun
  | e :: es, _, _, _, _, _, _, _, htold, hfits, h => by
    obtain ⟨f, _, _, here, rest, hf, hhere, -, hrest, rfl⟩ := h
    obtain ⟨g, hg, rfl⟩ := map_eq_ok.mp hf
    have hleft := hfits.left (FirstSet.exact_sequence htold.2 hg) (exists_mem_of_told htold.2)
    have hright := hfits.right (Element.exists_mem_language (htold.1.imp fun _ he => he.admits))
    exact List.forall_mem_append.mpr ⟨exact_visits hT e htold.1 hleft hhere,
      exact_visitsAll hT es htold.2 hright hrest⟩

theorem exact_visitsAmong (hT : ExactTarget c.inventory c.first W P target) :
    ∀ (branches : List (List Element)) {m : Option Emission} {follow : FirstSet}
      {before after : Language Symbol} {join s : StateId} {σ : Assembly} {visits : List Visit},
      Element.EveryAmong (Told c.inventory c.first P) branches →
      Fits W (Element.languageAny c.inventory P branches) follow before after →
      VisitsAmong c P target m follow before after join branches s σ visits →
      ∀ v ∈ visits, v.Exact c.inventory c.first W
  | [], _, _, _, _, _, _, _, _, _, _, h => by
    rw [show _ = [] from h]
    exact nofun
  | [] :: branches, _, _, _, _, _, _, _, _, htold, hfits, h => by
    obtain ⟨_, -, h⟩ := h
    exact exact_visitsAmong hT branches htold.2 (hfits.mono fun _ => .inr) h
  | (e :: es) :: branches, _, _, _, _, _, _, _, _, htold, hfits, h => by
    obtain ⟨_, _, _, here, _, rest, -, -, hhere, -, hrest, rfl⟩ := h
    exact List.forall_mem_append.mpr
      ⟨exact_visitsAll hT (e :: es) htold.1 (hfits.mono fun _ => .inl) hhere,
        exact_visitsAmong hT branches htold.2 (hfits.mono fun _ => .inr) hrest⟩

end

/-! ## The visits of a rule -/

/-- If the element names a set, then this has a segment. -/
def Element.HasSegments (i : Inventory) (e : Element) : Prop :=
  e.isSet = true → ∃ members, i.membersOf e = .ok members ∧ ∃ m ∈ members, m ≠ []

section Rules

variable {rule : Rule} {strip : Bool} {v : Visit} {visits : List Visit} {first : FirstSet}
  {branches : List (List Element)}

/-- Every choice of a rule that is read has branches. -/
theorem satisfiable_of_grammatical {known : List Text} {e : Element} (h : e.Grammatical known)
    (hsegments : e.HasSegments i) : e.Satisfiable i where
  segment := hsegments
  branch := by
    rintro rfl
    exact absurd h.1 (by decide)

theorem told_target {place : Except RuleError FirstSet} (hrule : rule.Readable)
    (htarget : Element.EveryOf (Element.HasSegments i) rule.target) :
    Element.EveryOf (Told i place 1) rule.target := by
  obtain ⟨known, hgrammatical⟩ := Statement.exists_grammatical_of_readable hrule
  refine ((hgrammatical.target.and htarget).and hrule.wellFormed.target).imp ?_
  rintro e ⟨⟨hgrammar, hsegments⟩, hin⟩
  have hsatisfiable := satisfiable_of_grammatical hgrammar.1 hsegments
  exact ⟨hin.ne_nil, ⟨hsatisfiable, fun hplace => absurd hplace hin.ne_placeholder⟩,
    fun hplace => absurd hplace hin.ne_placeholder⟩

theorem told_environment (hrule : rule.Readable)
    (htarget : Element.EveryOf (Element.HasSegments i) rule.target)
    (henvironment : Element.EveryOf (Element.HasSegments i) (rule.environmentFor strip)) :
    Element.EveryOf (Told i (FirstSet.ofTarget i rule.target) (rule.targetLanguage i))
      (rule.environmentFor strip) := by
  obtain ⟨known, hgrammatical⟩ := Statement.exists_grammatical_of_readable hrule
  have hall := hgrammatical.environment.and hrule.wellFormed.environment
  have hstripped : Element.EveryOf _ (rule.environmentFor strip) := Element.everyOf_iff.mpr
    fun e he => Element.everyOf_iff.mp hall e (Rule.environmentFor_subset he)
  have htold : Element.EveryOf (Told i (.ok .nothing) 1) rule.target := told_target hrule htarget
  refine (hstripped.and henvironment).imp ?_
  rintro e ⟨⟨hgrammar, hne⟩, hsegments⟩
  have hsatisfiable := satisfiable_of_grammatical hgrammar hsegments
  exact ⟨hne, ⟨hsatisfiable, fun _ => exists_mem_of_told htold⟩,
    fun _ _ hf => FirstSet.exact_sequence htold hf⟩

/-- Every visit of a rule is exact, if its sets have segments. -/
theorem Rule.Visits.exact (hrule : rule.Readable)
    (htarget : Element.EveryOf (Element.HasSegments i) rule.target)
    (henvironment : Element.EveryOf (Element.HasSegments i) (rule.environmentFor strip))
    (h : rule.Visits i strip visits) :
    ∀ v ∈ visits, v.Exact i (FirstSet.ofTarget i rule.target) (rule.language i strip) := by
  have hnone : ExactTarget i (FirstSet.ofTarget i rule.target) (rule.language i strip) 1
      (fun _ _ _ _ _ visits => visits = []) := by
    rintro _ _ _ _ _ _ - rfl
    exact nofun
  have hT : ExactTarget i (FirstSet.ofTarget i rule.target) (rule.language i strip)
      (rule.targetLanguage i) (rule.TargetVisits i) := by
    rintro _ _ _ _ _ _ hfits ⟨ms, -, hwithin⟩
    exact exact_visitsAll (c := targetSetting i rule) hnone rule.target
      (told_target hrule htarget) hfits hwithin
  have hfits : Fits (rule.language i strip) (rule.language i strip) .nothing 1 1 := by
    refine ⟨.nothing, ⟨[], rfl⟩, ⟨[], rfl⟩, ?_⟩
    rintro _ v _ rfl hv rfl
    rwa [List.nil_append, List.append_nil]
  exact exact_visitsAll (c := environmentSetting i rule) hT (rule.environmentFor strip)
    (told_environment hrule htarget henvironment) hfits h

/-- In some match of the whole, the symbol comes directly after what the element reads. -/
def Visit.FollowedBy (i : Inventory) (W : Language Symbol) (v : Visit) (c : Symbol) : Prop :=
  ∃ u ∈ v.before, ∃ p ∈ v.element.language i v.place, ∃ w,
    c :: w ∈ v.after ∧ u ++ p ++ c :: w ∈ W

theorem Visit.Exact.mem_follow_iff {target : Except RuleError FirstSet} {d : Symbol}
    (h : v.Exact i target W) : d ∈ v.follow.symbols ↔ v.FollowedBy i W d := by
  rw [h.fits.exact.mem_symbols_iff]
  constructor
  · rintro ⟨w, hw⟩
    obtain ⟨u, hu⟩ := h.fits.can_before
    obtain ⟨p, hp⟩ := Element.exists_mem_language (h.told.imp fun _ he => he.admits)
    exact ⟨u, hu, p, hp, w, hw, h.fits.mem hu hp hw⟩
  · rintro ⟨_, _, _, _, w, hw, -⟩
    exact ⟨w, hw⟩

/-- The edges to reject of a state that passes to others silently. -/
theorem mem_edgesOf_forks {a : Automaton} {s : StateId} {forks : List StateId}
    {symbols : List Symbol} {d : Symbol} (hforks : ∀ f ∈ forks, Automaton.reject < f)
    (h : a.view s = { arcs := (forks.map silent ++ symbols.map reject).foldl Arc.addTo [] }) :
    ⟨d, Automaton.reject⟩ ∈ a.edgesOf s ↔ d ∈ symbols := by
  have harc : ⟨d, Automaton.reject⟩ ∈ a.edgesOf s ↔
      ∃ b ∈ (a.view s).arcs, b.symbol = d ∧ b.target = Automaton.reject :=
    Automaton.mem_edgesOf_iff
  rw [harc, h]
  constructor
  · rintro ⟨b, hb, rfl, ht⟩
    rcases mem_forks.mp hb with ⟨f, hf, rfl⟩ | ⟨c, hc, rfl⟩
    · exact absurd ht (Nat.ne_of_gt (hforks f hf))
    · exact hc
  · exact fun hd => ⟨reject d, mem_forks.mpr (.inr ⟨d, hd, rfl⟩), rfl, rfl⟩

/-- The edges to reject at a choice. -/
theorem mem_edgesOf_choice {a : Automaton} {read : StateId → FirstSet → Assemble StateId}
    {target : Except RuleError FirstSet} {d : Symbol} (hmet : Met i target read a v)
    (hexact : v.Exact i target W) (hv : v.element = .disjunction branches) :
    ⟨d, Automaton.reject⟩ ∈ a.edgesOf v.state ↔
      (∀ branch ∈ branches, [] ∉ Element.languageAll i v.place branch) ∧ v.FollowedBy i W d ∧
      ∀ branch ∈ branches, ∀ w, d :: w ∉ Element.languageAll i v.place branch := by
  obtain ⟨forks, first, hforks, hfirst, hview⟩ := hmet.choice hv
  have htold := hexact.told
  rw [hv] at htold
  have hbranches := FirstSet.exact_branches htold.2 hfirst
  have hnull : first.nullable = false ↔
      ∀ branch ∈ branches, [] ∉ Element.languageAll i v.place branch := by
    rw [← Bool.not_eq_true, hbranches.nullable_iff, mem_languageAny, not_exists]
    exact forall_congr' fun _ => not_and
  have hbegins : d ∉ first.symbols ↔
      ∀ branch ∈ branches, ∀ w, d :: w ∉ Element.languageAll i v.place branch := by
    rw [hbranches.mem_symbols_iff]
    refine ⟨fun h branch hbranch w hw => h ⟨w, mem_languageAny.mpr ⟨branch, hbranch, hw⟩⟩, ?_⟩
    rintro h ⟨w, hw⟩
    obtain ⟨branch, hbranch, hw⟩ := mem_languageAny.mp hw
    exact h branch hbranch w hw
  rw [mem_edgesOf_forks hforks hview, mem_rejected, hexact.mem_follow_iff, hnull, hbegins]

end Rules

/-- Where a choice begins that can read nothing, no symbol is forbidden. Where another choice
begins, just the symbols are forbidden that can come directly after it in some match of the whole
rule and that begin none of its branches. Nowhere else is a symbol forbidden. -/
theorem Rule.reject_edges {i : Inventory} {rule : Rule} {strip : Bool} {a : Automaton}
    (hrule : rule.Readable) (htarget : Element.EveryOf (Element.HasSegments i) rule.target)
    (henvironment : Element.EveryOf (Element.HasSegments i) (rule.environmentFor strip))
    (h : rule.automaton i strip = .ok a) :
    ∃ visits, rule.Visits i strip visits ∧ visits.map Visit.element = rule.occurrences strip ∧
      (∀ v ∈ visits, ∀ branches, v.element = .disjunction branches → ∀ c,
        (⟨c, Automaton.reject⟩ ∈ a.edgesOf v.state ↔
          (∀ branch ∈ branches, [] ∉ Element.languageAll i v.place branch) ∧
          v.FollowedBy i (rule.language i strip) c ∧
          ∀ branch ∈ branches, ∀ w, c :: w ∉ Element.languageAll i v.place branch)) ∧
      ∀ s c, ⟨c, Automaton.reject⟩ ∈ a.edgesOf s → ∃ v ∈ visits, v.IsChoice ∧ v.state = s := by
  obtain ⟨visits, last, hvisits, houtlined⟩ := outlined_of_automaton h
  have hexact := hvisits.exact hrule htarget henvironment
  refine ⟨visits, hvisits, hvisits.map_element, fun v hv branches hbranches c =>
    mem_edgesOf_choice (houtlined.met v hv) (hexact v hv) hbranches, fun s c hc => ?_⟩
  rcases houtlined.edge hc with ⟨-, -, hchoice⟩ | ⟨_, -, hlt, -⟩
  · exact hchoice
  · exact absurd hlt (Nat.lt_irrefl _)

/-- In `a/o/(k|#)_`, only `a` is forbidden where the choice begins: it must come next, and none of
the branches begins with it. -/
theorem Rule.rounding_reject_edges : rounding.Readable ∧ ∃ a, rounding.automaton {} true = .ok a ∧
    ∀ c, ⟨c, Automaton.reject⟩ ∈ a.edgesOf Automaton.start ↔ c = .char 'a' := by
  obtain ⟨a, ha⟩ : ∃ a, rounding.automaton {} true = .ok a := exists_ok (by decide +kernel)
  have htarget : Element.EveryOf (Element.HasSegments {}) rounding.target := ⟨nofun, trivial⟩
  have henvironment : Element.EveryOf (Element.HasSegments {}) (rounding.environmentFor true) :=
    ⟨⟨nofun, ⟨nofun, trivial⟩, ⟨nofun, trivial⟩, trivial⟩, nofun, trivial⟩
  obtain ⟨visits, hvisits, -, hedges, -⟩ :=
    reject_edges rounding_readable htarget henvironment ha
  have hone {P : Language Symbol} {e : Element} :
      Element.languageAll {} P [e] = e.language {} P := mul_one _
  have hplace : Element.languageAll {} (rounding.targetLanguage {}) [.placeholder] =
      ({[.char 'a']} : Language Symbol) := hone.trans hone
  have hafter := (mul_one _).trans hplace
  -- the first visit is to the choice, and only the placeholder follows
  obtain ⟨follow, next, σ, here, rest, -, hhere, -, -, rfl⟩ := hvisits
  obtain ⟨_, _, within, -, -, rfl⟩ := hhere
  refine ⟨rounding_readable, a, ha, fun c => (hedges _ (List.mem_cons_self ..) _ rfl c).trans ?_⟩
  constructor
  · rintro ⟨-, ⟨_, -, _, -, w, hw, -⟩, -⟩
    exact (List.cons.inj (hafter ▸ hw : c :: w ∈ ({[.char 'a']} : Language Symbol))).1
  · rintro rfl
    have hk : [.char 'k'] ∈ Element.languageAny {} (rounding.targetLanguage {})
        [[.utterance ['k']], [.boundary .start]] := .inl (hone ▸ rfl)
    refine ⟨?_, ⟨[], rfl, [.char 'k'], hk, [], hafter ▸ rfl, ?_⟩, ?_⟩
    · exact List.forall_mem_cons.mpr ⟨hone ▸ nofun, List.forall_mem_singleton.mpr (hone ▸ nofun)⟩
    · exact Language.append_mem_mul hk (hplace ▸ rfl)
    · exact List.forall_mem_cons.mpr
        ⟨fun w => hone ▸ nofun, List.forall_mem_singleton.mpr fun w => hone ▸ nofun⟩

end SoundChange
