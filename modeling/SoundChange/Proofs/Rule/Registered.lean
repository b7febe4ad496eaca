import SoundChange.Proofs.Automaton.Limit
import SoundChange.Proofs.Rule.Construction
import SoundChange.SoundLaw

/-!
# Rules attach registered transforms

Assembling attaches only transforms that it has added before. `Secures` says what is carried along:
all that is attached stays registered, and transforms keep their numbers. Every function of
assembling secures its result, given that the numbers handed to it are `Known`; so the automaton of
a rule is registered (`registered_of_automaton`), and its table can only be too large
(`Rule.table_eq_error`).
-/

namespace SoundChange

namespace Assembly

variable {σ σ₁ σ₂ : Assembly} {i : Inventory} {s t exit : StateId} {n : TransformId}
  {u : Option TargetUnit} {c : Setting} {m : Option Emission} {ms : List Emission}
  {follow : FirstSet}

/-- There is a transform of this number. -/
def Known (σ : Assembly) (n : TransformId) : Prop := n < σ.automaton.transforms.size

/-- What was attached and registered before still is, and there are at least as many transforms. -/
structure Secures (σ σ₁ : Assembly) : Prop where
  size_le : σ.automaton.transforms.size ≤ σ₁.automaton.transforms.size
  registered : σ.automaton.Registered → σ₁.automaton.Registered

theorem Known.later (h : Known σ n) (hσ : Secures σ σ₁) : Known σ₁ n :=
  Nat.lt_of_lt_of_le h hσ.size_le

namespace Secures

theorem refl (σ : Assembly) : Secures σ σ := ⟨Nat.le_refl _, id⟩

theorem trans (h : Secures σ σ₁) (h' : Secures σ₁ σ₂) : Secures σ σ₂ :=
  ⟨Nat.le_trans h.size_le h'.size_le, h'.registered ∘ h.registered⟩

end Secures

/-! ## Single steps -/

theorem secures_pure {α : Type} {v w : α} (h : Yields (pure v) σ w σ₁) : Secures σ σ₁ := by
  obtain ⟨-, rfl⟩ := yields_pure.mp h
  exact .refl _

theorem secures_addState {inTarget : Bool} (h : Yields (addState inTarget) σ t σ₁) :
    Secures σ σ₁ := by
  obtain ⟨-, rfl⟩ := yields_addState.mp h
  exact ⟨Nat.le_refl _, (·.addState inTarget)⟩

theorem secures_addUnit {k : Nat} (h : Yields addUnit σ k σ₁) : Secures σ σ₁ := by
  obtain ⟨-, rfl⟩ := yields_addUnit.mp h
  exact ⟨Nat.le_refl _, id⟩

theorem secures_addTransform {v : Transform} (h : Yields (addTransform v) σ n σ₁) :
    Secures σ σ₁ ∧ Known σ₁ n := by
  obtain ⟨rfl, rfl⟩ := yields_addTransform.mp h
  have hsize : (σ.automaton.addTransform v).transforms.size = σ.automaton.transforms.size + 1 :=
    Array.size_push ..
  refine ⟨⟨?_, fun ha => ha.addTransform v⟩, ?_⟩
  · rw [hsize]
    exact Nat.le_succ _
  · rw [Known, hsize]
    exact Nat.lt_succ_self _

theorem secures_change {f : Automaton → Automaton} {r : Unit} (h : Yields (change f) σ r σ₁)
    (htransforms : (f σ.automaton).transforms = σ.automaton.transforms)
    (hf : σ.automaton.Registered → (f σ.automaton).Registered) : Secures σ σ₁ := by
  obtain rfl := yields_change.mp h
  exact ⟨Nat.le_of_eq (congrArg Array.size htransforms.symm), hf⟩

theorem secures_change_addEdge {d : Symbol} {r : Unit}
    (h : Yields (change (·.addEdge s d t)) σ r σ₁) : Secures σ σ₁ :=
  secures_change h rfl (·.addEdge)

theorem secures_addEdge {d : Symbol} {tr : Option TransformId} {r : Unit}
    (htr : ∀ n ∈ tr, Known σ n) (h : Yields (addEdge s d t tr) σ r σ₁) : Secures σ σ₁ := by
  obtain ⟨_, σ₂, hedge, h⟩ := yields_bind.mp h
  have hedge := secures_change_addEdge hedge
  cases tr with
  | none => exact hedge.trans (secures_pure h)
  | some n =>
    have hn : Known σ₂ n := (htr n rfl).later hedge
    exact hedge.trans (secures_change h Automaton.Registered.transforms_attach (·.attach hn))

theorem secures_rejectAll {symbols : List Symbol} {r : Unit}
    (h : Yields (rejectAll s symbols) σ r σ₁) : Secures σ σ₁ := by
  induction symbols generalizing σ with
  | nil =>
    obtain rfl := yields_change.mp h
    exact .refl _
  | cons d symbols ih =>
    have hfirst : Secures σ { σ with automaton := σ.automaton.addReject s d } :=
      ⟨Nat.le_refl _, (·.addEdge)⟩
    exact hfirst.trans (ih (yields_change.mpr (yields_change.mp h)))

/-! ## Texts and sets -/

theorem secures_spell {inTarget : Bool} {tr : Option (TransformId × TransformId)} :
    ∀ {text : Text} {s : StateId} {σ : Assembly}, (∀ p ∈ tr, Known σ p.1 ∧ Known σ p.2) →
      Yields (spell inTarget tr text s) σ t σ₁ → Secures σ σ₁
  | [], _, _, _, h => secures_pure h
  | d :: text, s, σ, htr, h => by
    obtain ⟨next, σ₂, hstate, h₂⟩ := yields_bind.mp h
    obtain ⟨_, σ₃, hedge, hrest⟩ := yields_bind.mp h₂
    have hstate := secures_addState hstate
    have hedge := secures_addEdge (fun n hn => ?_) hedge
    · have hhere := hstate.trans hedge
      exact hhere.trans (secures_spell (fun p hp =>
        ⟨(htr p hp).1.later hhere, (htr p hp).2.later hhere⟩) hrest)
    · obtain ⟨p, hp, rfl⟩ := Option.map_eq_some_iff.mp hn
      split
      · exact (htr p hp).2.later hstate
      · exact (htr p hp).1.later hstate

theorem secures_beginUnit {e : Element} {m : Emission} {v : TargetUnit}
    (h : Yields (beginUnit e m) σ v σ₁) : Secures σ σ₁ ∧ Known σ₁ v.null := by
  obtain ⟨number, σ₂, hunit, h₂⟩ := yields_bind.mp h
  obtain ⟨null, σ₃, hnull, h₃⟩ := yields_bind.mp h₂
  obtain ⟨rfl, rfl⟩ := yields_pure.mp h₃
  obtain ⟨hnull, hknown⟩ := secures_addTransform hnull
  exact ⟨(secures_addUnit hunit).trans hnull, hknown⟩

/-- The transform that writes a replacement, or the null transform if there is nothing to write. -/
theorem secures_last {replacement : Text} {null : TransformId} {v : Transform}
    (hnull : Known σ null)
    (h : Yields (if replacement.isEmpty then pure null else addTransform v) σ n σ₁) :
    Secures σ σ₁ ∧ Known σ₁ n := by
  split at h
  · obtain ⟨rfl, rfl⟩ := yields_pure.mp h
    exact ⟨.refl _, hnull⟩
  · exact secures_addTransform h

theorem secures_closeUnit {member : Text} {place : TransformId → Automaton → Automaton} {r : Unit}
    (hu : ∀ v ∈ u, Known σ v.null)
    (htransforms : ∀ n a, (place n a).transforms = a.transforms)
    (hplace : ∀ {n a}, a.Registered → n < a.transforms.size → (place n a).Registered)
    (h : Yields (closeUnit i u member place) σ r σ₁) : Secures σ σ₁ := by
  cases u with
  | none => exact secures_pure h
  | some v =>
    obtain ⟨n, σ₂, hend, hchange⟩ := yields_bind.mp h
    obtain ⟨text, σ₃, hlift, hlast⟩ := yields_bind.mp hend
    obtain ⟨-, rfl⟩ := yields_lift.mp hlift
    obtain ⟨hlast, hknown⟩ := secures_last (hu v rfl) hlast
    exact hlast.trans (secures_change hchange (htransforms n _) fun ha => hplace ha hknown)

theorem secures_readForest : ∀ {forest : Forest} {path : Text} {s : StateId} {σ σ₁ : Assembly}
    {r : Unit},
    (∀ v ∈ u, Known σ v.null) → Yields (readForest i u exit path forest s) σ r σ₁ → Secures σ σ₁
  | .empty, _, _, _, _, _, _, h => secures_pure h
  | .branch d isMember below beside, path, s, σ, σ₁, r, hu, h => by
    rw [readForest_branch] at h
    obtain ⟨_, σ₂, harc, hrest⟩ := yields_bind.mp h
    have hbelow {next : StateId} {σ σ₁ : Assembly} {r : Unit} (hu : ∀ v ∈ u, Known σ v.null)
        (h : Yields (readForest i u exit (path ++ [d]) below next) σ r σ₁) : Secures σ σ₁ :=
      secures_readForest hu h
    have harc : Secures σ σ₂ := by
      rw [readArc] at harc
      split at harc
      · obtain ⟨_, σ₃, hedge, hclose⟩ := yields_bind.mp harc
        have hedge := secures_change_addEdge hedge
        split at hclose
        · exact hedge.trans (secures_closeUnit (fun v hv => (hu v hv).later hedge)
            (fun _ _ => Automaton.Registered.transforms_attach) (·.attach) hclose)
        · exact hedge.trans (secures_pure hclose)
      · obtain ⟨next, σ₃, hstate, h₃⟩ := yields_bind.mp harc
        obtain ⟨_, σ₄, hedge, h₄⟩ := yields_bind.mp h₃
        obtain ⟨_, σ₅, hinner, hleave⟩ := yields_bind.mp h₄
        have hstate := secures_addState hstate
        have hedge := secures_addEdge (fun n hn => by
          obtain ⟨v, hv, rfl⟩ := Option.map_eq_some_iff.mp hn
          exact (hu v hv).later hstate) hedge
        have hto := hstate.trans hedge
        have hthrough := hto.trans (hbelow (fun v hv => (hu v hv).later hto) hinner)
        split at hleave
        · obtain ⟨_, σ₆, hsilent, hclose⟩ := yields_bind.mp hleave
          have hto := hthrough.trans (secures_change_addEdge hsilent)
          exact hto.trans (secures_closeUnit (fun v hv => (hu v hv).later hto)
            (fun _ _ => Automaton.Registered.transforms_attachDefault) (·.attachDefault) hclose)
        · exact hthrough.trans (secures_pure hleave)
    exact harc.trans (secures_readForest (fun v hv => (hu v hv).later harc) hrest)

theorem secures_readSet {e : Element} (h : Yields (readSet i e m s) σ t σ₁) : Secures σ σ₁ := by
  obtain ⟨trie, u, σ₂, σ₃, -, hexit, hunit, hread⟩ := yields_readSet h
  have hunit : Secures σ₂ σ₃ ∧ ∀ v ∈ u, Known σ₃ v.null := by
    cases m with
    | none =>
      obtain ⟨rfl, rfl⟩ := yields_pure.mp hunit
      exact ⟨.refl _, nofun⟩
    | some m =>
      obtain ⟨v, hbegin, rfl⟩ := yields_map.mp hunit
      obtain ⟨hsecures, hknown⟩ := secures_beginUnit hbegin
      exact ⟨hsecures, fun w hw => by cases hw; exact hknown⟩
  exact ((secures_addState hexit).trans hunit.1).trans (secures_readForest hunit.2 hread)

theorem secures_readText {text : Text} (h : Yields (readText i text m s) σ t σ₁) :
    Secures σ σ₁ := by
  cases m with
  | none => exact secures_spell (by simp) h
  | some m =>
    obtain ⟨number, replacement, null, last, _, _, _, hunit, -, hnull, hlast, hspell⟩ :=
      yields_readText h
    obtain ⟨hnull, hknown⟩ := secures_addTransform hnull
    obtain ⟨hlast, hknown'⟩ := secures_last hknown hlast
    have hspell := secures_spell (fun p hp => ?_) hspell
    · exact (((secures_addUnit hunit).trans hnull).trans hlast).trans hspell
    · cases hp
      exact ⟨hknown.later hlast, hknown'⟩

/-! ## All elements -/

/-- What is assembled for a sequence is secured. -/
def SecuresSequence (c : Setting) (ms : List Emission) (follow : FirstSet) (es : List Element) :
    Prop :=
  ∀ {σ σ₁ : Assembly} {s t : StateId}, Yields (readSequence c ms follow es s) σ t σ₁ →
    Secures σ σ₁

/-- What is assembled for the placeholder is secured. -/
def SecuresTarget (c : Setting) : Prop :=
  ∀ {σ σ₁ : Assembly} {s t : StateId} {follow : FirstSet}, Yields (c.readTarget s follow) σ t σ₁ →
    Secures σ σ₁

theorem secures_forkGroup {inner : StateId} (h : Yields (forkGroup m s) σ (t, inner) σ₁) :
    Secures σ σ₁ := by
  obtain ⟨bypass, σ₂, hbypass, h₂⟩ := yields_bind.mp h
  obtain ⟨inner', σ₃, hinner, h₃⟩ := yields_bind.mp h₂
  obtain ⟨_, σ₄, hin, h₄⟩ := yields_bind.mp h₃
  obtain ⟨_, σ₅, hby, h₅⟩ := yields_bind.mp h₄
  have hstates := (secures_addState hbypass).trans (secures_addState hinner)
  have hedges := (secures_change_addEdge hin).trans (secures_change_addEdge hby)
  exact (hstates.trans hedges).trans (secures_pure h₅)

theorem secures_optional {body : List Element} (hbody : ∀ ms, SecuresSequence c ms follow body)
    (h : Yields (readElement c m follow (.optional body) s) σ t σ₁) : Secures σ σ₁ := by
  obtain ⟨inner, ms, last, _, _, hfork, -, hsequence, hlast⟩ := yields_optional h
  exact ((secures_forkGroup hfork).trans (hbody ms hsequence)).trans (secures_change_addEdge hlast)

theorem secures_beginBranch {fork : StateId} (h : Yields (beginBranch m s) σ fork σ₁) :
    Secures σ σ₁ := by
  obtain ⟨_, σ₂, hstate, h₂⟩ := yields_bind.mp h
  obtain ⟨_, σ₃, hsilent, h₃⟩ := yields_bind.mp h₂
  exact ((secures_addState hstate).trans (secures_change_addEdge hsilent)).trans (secures_pure h₃)

theorem secures_readBranch {branch : List Element} {join : StateId}
    (hbody : ∀ ms, SecuresSequence c ms follow branch)
    (h : Yields (readBranch c m follow join s branch) σ () σ₁) : Secures σ σ₁ := by
  cases branch with
  | nil => exact secures_change_addEdge h
  | cons e es =>
    obtain ⟨fork, ms, last, _, _, hbegin, -, hsequence, hlast⟩ := yields_readBranch_cons h
    exact ((secures_beginBranch hbegin).trans (hbody ms hsequence)).trans
      (secures_change_addEdge hlast)

theorem secures_readBranches {branches : List (List Element)} {join : StateId} {first : FirstSet}
    (hbody : ∀ branch ∈ branches, ∀ ms, SecuresSequence c ms follow branch)
    (h : Yields (readBranches c m follow join branches s) σ first σ₁) : Secures σ σ₁ := by
  induction branches generalizing σ first with
  | nil =>
    rw [readBranches] at h
    exact secures_pure h
  | cons branch branches ih =>
    obtain ⟨head, rest, _, -, hbranch, hrest, -⟩ := yields_readBranches_cons h
    have hbranch := secures_readBranch (hbody branch (List.mem_cons_self ..)) hbranch
    exact hbranch.trans (ih (fun branch hb => hbody branch (List.mem_cons_of_mem _ hb)) hrest)

theorem secures_disjunction {branches : List (List Element)}
    (hbody : ∀ branch ∈ branches, ∀ ms, SecuresSequence c ms follow branch)
    (h : Yields (readElement c m follow (.disjunction branches) s) σ t σ₁) : Secures σ σ₁ := by
  obtain ⟨join, first, _, _, hjoin, hbranches, hend⟩ := yields_disjunction h
  have hto := (secures_addState hjoin).trans (secures_readBranches hbody hbranches)
  split at hend
  · exact hto.trans (secures_pure hend)
  · obtain ⟨_, _, hreject, hend⟩ := yields_bind.mp hend
    exact (hto.trans (secures_rejectAll hreject)).trans (secures_pure hend)

mutual

theorem secures_readElement (hT : SecuresTarget c) : ∀ (e : Element) {m : Option Emission}
    {follow : FirstSet} {σ σ₁ : Assembly} {s t : StateId},
    Yields (readElement c m follow e s) σ t σ₁ → Secures σ σ₁
  | .utterance text, _, _, _, _, _, _, h => by
    rw [readElement] at h
    exact secures_readText h
  | .set ref, _, _, _, _, _, _, h => by
    rw [readElement] at h
    exact secures_readSet h
  | .compound refs, _, _, _, _, _, _, h => by
    rw [readElement] at h
    exact secures_readSet h
  | .optional body, _, _, _, _, _, _, h =>
    secures_optional (fun _ => secures_readSequence hT body) h
  | .disjunction branches, _, _, _, _, _, _, h =>
    secures_disjunction (secures_branches hT branches) h
  | .boundary edge, _, _, _, _, _, _, h => by
    obtain ⟨_, hstate, harc⟩ := yields_boundary h
    exact (secures_addState hstate).trans (secures_addEdge (by simp) harc)
  | .placeholder, m, _, _, _, _, _, h => by
    rw [readElement] at h
    cases m with
    | none => exact hT h
    | some m => exact secures_pure h

theorem secures_readSequence (hT : SecuresTarget c) : ∀ (es : List Element) {ms : List Emission}
    {follow : FirstSet}, SecuresSequence c ms follow es
  | [], _, _, _, _, _, _, h => by
    rw [readSequence] at h
    exact secures_pure h
  | e :: es, _, _, _, _, _, _, h => by
    obtain ⟨after, next, _, -, helement, hrest⟩ := yields_readSequence_cons h
    exact (secures_readElement hT e helement).trans (secures_readSequence hT es hrest)

theorem secures_branches (hT : SecuresTarget c) : ∀ (branches : List (List Element))
    {follow : FirstSet}, ∀ branch ∈ branches, ∀ ms, SecuresSequence c ms follow branch
  | [], _, _, h, _ => nomatch h
  | branch :: branches, _, other, h, ms => by
    rcases List.mem_cons.mp h with h | h
    · exact h ▸ secures_readSequence hT branch
    · exact secures_branches hT branches other h ms

end

/-! ## Whole rules -/

variable {rule : Rule} {strip : Bool} {a : Automaton}

theorem secures_readTarget : SecuresTarget (Layout.environmentSetting i rule) := by
  intro σ σ₁ s t follow h
  obtain ⟨ms, -, hread⟩ := yields_readTarget.mp h
  have hnone : SecuresTarget (Layout.targetSetting i rule) := secures_pure
  exact secures_readSequence hnone rule.target hread

/-- The automaton of a rule attaches only transforms that it has. -/
theorem registered_of_automaton (h : rule.automaton i strip = .ok a) : a.Registered := by
  obtain ⟨last, σ₁, hsequence, rfl⟩ := yields_of_automaton h
  have hsecures := secures_readSequence secures_readTarget _ hsequence
  exact (hsecures.registered Automaton.registered_empty).setFinal

end Assembly

/-- A rule has no table only if it has no automaton, or if the table outgrows its limit. -/
theorem Rule.table_eq_error {i : Inventory} {rule : Rule} {options : CompileOptions}
    {e : RuleError} (h : rule.table i options = .error e) :
    rule.automaton i options.stripOptionals = .error e ∨
      e = .automaton (.stateLimit options.maxStates) := by
  rw [table] at h
  split at h
  · rename_i he
    cases h
    exact .inl he
  · rename_i a ha
    split at h
    · cases h
    · rename_i error herror
      cases h
      have hlimit := Table.ofAutomaton_error (Assembly.layout_of_automaton ha).1
        (Assembly.registered_of_automaton ha) herror
      exact .inr (by rw [hlimit.1])

end SoundChange
