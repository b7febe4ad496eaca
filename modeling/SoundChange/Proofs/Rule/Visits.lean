import SoundChange.Proofs.Rule.Construction
import SoundChange.Proofs.Rule.Derivation

/-!
# What assembling a rule comes to

Assembling a rule comes to each choice and to each placeholder in its environment, and at each
placeholder to the choices in the target. `Rule.Visits` lists these visits in order, each with the
state and the assembly that there were then, and with what is matched before and after it in a match
that goes that way. There is one visit for each occurrence (`Rule.Visits.map_element`).
-/

namespace SoundChange

open Assembly Layout

/-- A choice or a placeholder that assembling has come to: where and when, the first set of what
follows, and what is matched before it, after it and, if there is a placeholder, in the place of
that. -/
structure Visit where
  element : Element
  state : StateId
  assembly : Assembly
  follow : FirstSet
  before : Language Symbol
  after : Language Symbol
  place : Language Symbol

/-- The visits at a placeholder, given what follows, what is matched before and after it, and from
which state and assembly it is assembled. -/
abbrev Visit.Plan :=
  FirstSet → Language Symbol → Language Symbol → StateId → Assembly → List Visit → Prop

mutual

/-- The visits that there are while an element is assembled from the state `s`. -/
def Visits (c : Setting) (P : Language Symbol) (target : Visit.Plan) (m : Option Emission)
    (follow : FirstSet) (before after : Language Symbol) :
    Element → StateId → Assembly → List Visit → Prop
  | .utterance _, _, _, visits => visits = []
  | .set _, _, _, visits => visits = []
  | .compound _, _, _, visits => visits = []
  | .optional body, s, σ, visits => ∃ t inner σ₁ ms, Yields (forkGroup m s) σ (t, inner) σ₁ ∧
    c.emissions m body = .ok ms ∧ VisitsAll c P target ms follow before after body inner σ₁ visits
  | .disjunction branches, s, σ, visits => ∃ join σ₁ within,
    Yields (addState m.isSome) σ join σ₁ ∧
      VisitsAmong c P target m follow before after join branches s σ₁ within ∧
      visits = ⟨.disjunction branches, s, σ, follow, before, after, P⟩ :: within
  | .boundary _, _, _, visits => visits = []
  | .placeholder, s, σ, visits => if m.isSome then visits = []
    else ∃ within, target follow before after s σ within ∧
      visits = ⟨.placeholder, s, σ, follow, before, after, P⟩ :: within

/-- The visits in a sequence: what comes before and after an element belongs to what is matched
before and after it. -/
def VisitsAll (c : Setting) (P : Language Symbol) (target : Visit.Plan) (ms : List Emission)
    (follow : FirstSet) (before after : Language Symbol) :
    List Element → StateId → Assembly → List Visit → Prop
  | [], _, _, visits => visits = []
  | e :: es, s, σ, visits => ∃ f next σ₁ here rest, c.followOf es follow = .ok f ∧
    Visits c P target ms.head? f before (Element.languageAll c.inventory P es * after) e s σ here ∧
      Yields (readElement c ms.head? f e s) σ next σ₁ ∧
      VisitsAll c P target ms.tail follow (before * e.language c.inventory P) after es next σ₁
        rest ∧
      visits = here ++ rest

/-- The visits in branches. -/
def VisitsAmong (c : Setting) (P : Language Symbol) (target : Visit.Plan) (m : Option Emission)
    (follow : FirstSet) (before after : Language Symbol) (join : StateId) :
    List (List Element) → StateId → Assembly → List Visit → Prop
  | [], _, _, visits => visits = []
  | [] :: branches, s, σ, visits => ∃ σ₁, Yields (readBranch c m follow join s []) σ () σ₁ ∧
    VisitsAmong c P target m follow before after join branches s σ₁ visits
  | (e :: es) :: branches, s, σ, visits => ∃ fork σ₁ ms here σ₂ rest,
    Yields (beginBranch m s) σ fork σ₁ ∧ c.emissions m (e :: es) = .ok ms ∧
      VisitsAll c P target ms follow before after (e :: es) fork σ₁ here ∧
      Yields (readBranch c m follow join s (e :: es)) σ () σ₂ ∧
      VisitsAmong c P target m follow before after join branches s σ₂ rest ∧ visits = here ++ rest

end

namespace Rule

/-- The visits at a placeholder are those in the target, where there are no placeholders. -/
def TargetVisits (i : Inventory) (rule : Rule) : Visit.Plan := fun follow before after s σ visits =>
  ∃ ms, Emission.align [] rule.result rule.target = some ms ∧
    VisitsAll (targetSetting i rule) 1 (fun _ _ _ _ _ visits => visits = []) ms follow before after
      rule.target s σ visits

/-- The visits while a rule is assembled. -/
def Visits (i : Inventory) (rule : Rule) (strip : Bool) (visits : List Visit) : Prop :=
  VisitsAll (environmentSetting i rule) (rule.targetLanguage i) (TargetVisits i rule) [] .nothing 1
    1 (rule.environmentFor strip) Automaton.start {} visits

end Rule

/-- One branch and the others. -/
theorem visitsAmong_cons {c : Setting} {P before after : Language Symbol} {target : Visit.Plan}
    {m : Option Emission} {follow : FirstSet} {join s : StateId} {σ σ₁ : Assembly}
    {branch : List Element} {branches : List (List Element)} {here rest : List Visit}
    (h : VisitsAmong c P target m follow before after join [branch] s σ here)
    (hbranch : Yields (readBranch c m follow join s branch) σ () σ₁)
    (hrest : VisitsAmong c P target m follow before after join branches s σ₁ rest) :
    VisitsAmong c P target m follow before after join (branch :: branches) s σ (here ++ rest) := by
  cases branch with
  | nil =>
    obtain ⟨_, -, rfl⟩ := h
    exact ⟨σ₁, hbranch, hrest⟩
  | cons e es =>
    obtain ⟨fork, σ', ms, here', _, _, hbegin, hms, hhere, -, rfl, rfl⟩ := h
    rw [List.append_nil]
    exact ⟨fork, σ', ms, here', σ₁, rest, hbegin, hms, hhere, hbranch, hrest, rfl⟩

/-! ## Occurrences -/

/-- In the target every element has its emission, elsewhere none has. -/
def Emission.Fits (inTarget : Bool) (ms : List Emission) (es : List Element) : Prop :=
  ms.length = if inTarget then es.length else 0

namespace Emission

variable {inTarget : Bool} {ms : List Emission} {e : Element} {es : List Element}

theorem fits_nil : Fits false [] es := rfl

theorem Fits.head (h : Fits inTarget ms (e :: es)) : ms.head?.isSome = inTarget := by
  cases inTarget <;> cases ms <;> simp_all [Fits]

theorem Fits.tail (h : Fits inTarget ms (e :: es)) : Fits inTarget ms.tail es := by
  cases inTarget <;> cases ms <;> simp_all [Fits]

theorem length_align {results : List Element} {overflow : Text}
    (h : align overflow results es = some ms) : ms.length = es.length := by
  rw [align_eq_some h, length_shares]

theorem fits_emissions {c : Setting} {m : Option Emission} {body : List Element}
    (h : c.emissions m body = .ok ms) : Fits m.isSome ms body := by
  cases m with
  | none =>
    cases h
    rfl
  | some m =>
    rw [Setting.emissions] at h
    split at h
    · rename_i halign
      cases h
      exact length_align halign
    · cases h

end Emission

namespace Element

mutual

/-- The choices and placeholders in an element, from the outside to the inside; `place` stands for a
placeholder and what is in it. -/
def occurrences (place : List Element) : Element → List Element
  | utterance _ => []
  | set _ => []
  | compound _ => []
  | optional body => occurrencesOf place body
  | disjunction branches => disjunction branches :: occurrencesAmong place branches
  | boundary _ => []
  | placeholder => place

/-- The choices and placeholders in a sequence. -/
def occurrencesOf (place : List Element) : List Element → List Element
  | [] => []
  | e :: es => occurrences place e ++ occurrencesOf place es

/-- The choices and placeholders in branches. -/
def occurrencesAmong (place : List Element) : List (List Element) → List Element
  | [] => []
  | branch :: branches => occurrencesOf place branch ++ occurrencesAmong place branches

end

end Element

/-- The choices and placeholders in the environment of a rule, and behind each placeholder the
choices in the target. -/
def Rule.occurrences (rule : Rule) (strip : Bool) : List Element :=
  Element.occurrencesOf (.placeholder :: Element.occurrencesOf [] rule.target)
    (rule.environmentFor strip)

section Occurrences

variable {c : Setting} {P : Language Symbol} {target : Visit.Plan} {inTarget : Bool}
  {place : List Element}

/-- What is visited at a placeholder is just `place`. -/
def Visit.Plan.Lists (target : Visit.Plan) (inTarget : Bool) (place : List Element) : Prop :=
  if inTarget then place = []
  else ∀ follow before after s σ visits, target follow before after s σ visits →
    .placeholder :: visits.map Visit.element = place

mutual

theorem map_element_visits (hplace : target.Lists inTarget place) :
    ∀ (e : Element) {m : Option Emission} {follow : FirstSet} {before after : Language Symbol}
      {s : StateId} {σ : Assembly} {visits : List Visit}, m.isSome = inTarget →
      Visits c P target m follow before after e s σ visits →
      visits.map Visit.element = e.occurrences place
  | .utterance _, _, _, _, _, _, _, _, _, h => by
    rw [show _ = [] from h]
    rfl
  | .set _, _, _, _, _, _, _, _, _, h => by
    rw [show _ = [] from h]
    rfl
  | .compound _, _, _, _, _, _, _, _, _, h => by
    rw [show _ = [] from h]
    rfl
  | .optional body, m, _, _, _, _, _, _, hm, h => by
    obtain ⟨_, _, _, ms, -, hms, h⟩ := h
    exact map_element_visitsAll hplace body (hm ▸ Emission.fits_emissions hms) h
  | .disjunction branches, m, _, _, _, _, _, _, hm, h => by
    obtain ⟨_, _, within, -, h, rfl⟩ := h
    rw [List.map_cons, map_element_visitsAmong hplace branches hm h]
    rfl
  | .boundary _, _, _, _, _, _, _, _, _, h => by
    rw [show _ = [] from h]
    rfl
  | .placeholder, m, _, _, _, _, _, _, hm, h => by
    rw [Visits, hm] at h
    rw [Element.occurrences]
    cases inTarget with
    | true => rw [show _ = [] from h, show place = [] from hplace, List.map_nil]
    | false =>
      obtain ⟨within, h, rfl⟩ := h
      exact hplace _ _ _ _ _ _ h

theorem map_element_visitsAll (hplace : target.Lists inTarget place) :
    ∀ (es : List Element) {ms : List Emission} {follow : FirstSet}
      {before after : Language Symbol} {s : StateId} {σ : Assembly} {visits : List Visit},
      Emission.Fits inTarget ms es → VisitsAll c P target ms follow before after es s σ visits →
      visits.map Visit.element = Element.occurrencesOf place es
  | [], _, _, _, _, _, _, _, _, h => by
    rw [show _ = [] from h]
    rfl
  | e :: es, ms, _, _, _, _, _, _, hms, h => by
    obtain ⟨_, _, _, here, rest, -, hhere, -, hrest, rfl⟩ := h
    rw [List.map_append, map_element_visits hplace e hms.head hhere,
      map_element_visitsAll hplace es hms.tail hrest]
    rfl

theorem map_element_visitsAmong (hplace : target.Lists inTarget place) :
    ∀ (branches : List (List Element)) {m : Option Emission} {follow : FirstSet}
      {before after : Language Symbol} {join s : StateId} {σ : Assembly} {visits : List Visit},
      m.isSome = inTarget →
      VisitsAmong c P target m follow before after join branches s σ visits →
      visits.map Visit.element = Element.occurrencesAmong place branches
  | [], _, _, _, _, _, _, _, _, _, h => by
    rw [show _ = [] from h]
    rfl
  | [] :: branches, _, _, _, _, _, _, _, _, hm, h => by
    obtain ⟨_, -, h⟩ := h
    exact map_element_visitsAmong hplace branches hm h
  | (e :: es) :: branches, _, _, _, _, _, _, _, _, hm, h => by
    obtain ⟨_, _, ms, here, _, rest, -, hms, hhere, -, hrest, rfl⟩ := h
    rw [List.map_append, map_element_visitsAll hplace (e :: es) (hm ▸ Emission.fits_emissions hms)
      hhere, map_element_visitsAmong hplace branches hm hrest]
    rfl

end

end Occurrences

/-- There is one visit for each occurrence, in order. -/
theorem Rule.Visits.map_element {i : Inventory} {rule : Rule} {strip : Bool} {visits : List Visit}
    (h : rule.Visits i strip visits) : visits.map Visit.element = rule.occurrences strip := by
  have hnone : Visit.Plan.Lists (fun _ _ _ _ _ visits => visits = []) true [] := rfl
  have hplace : Visit.Plan.Lists (rule.TargetVisits i) false
      (.placeholder :: Element.occurrencesOf [] rule.target) := by
    intro follow before after s σ within hwithin
    obtain ⟨ms, halign, hwithin⟩ := hwithin
    have hfits : Emission.Fits true ms rule.target := Emission.length_align halign
    rw [map_element_visitsAll hnone _ hfits hwithin]
  exact map_element_visitsAll hplace _ Emission.fits_nil h

end SoundChange
