import SoundChange.Proofs.Rule.Assembling
import SoundChange.Proofs.Rule.Layout

/-!
# What it takes to read an element

The functions that assemble an element, a branch or a sequence are programs of several steps. For
each of them one lemma says which steps have been taken, and between which assemblies, when it has
succeeded (`yields_readText`, `yields_readSet`, `yields_optional`, `yields_disjunction`,
`yields_boundary`, `yields_readBranch_cons`, `yields_readBranches_cons`,
`yields_readSequence_cons`). What holds of all that is assembled is proved from these lemmas, case
by case, and does not open the functions.

The steps that belong together are named: `forkGroup` makes the ways into a group and past it,
`beginBranch` the way into a branch, and `readBranch` assembles a whole branch.
-/

namespace SoundChange.Assembly

variable {σ σ₁ : Assembly} {s t join : StateId} {i : Inventory} {c : Setting} {m : Option Emission}
  {ms : List Emission} {follow first : FirstSet} {body branch es : List Element}
  {branches : List (List Element)} {e : Element} {edge : WordEdge}

/-! ## Texts and sets -/

/-- A text of the target begins a unit and adds its transforms, the null one and the one for the end
of the text; then it is spelled with these. -/
theorem yields_readText {text : Text} {m : Emission}
    (h : Yields (readText i text (some m) s) σ t σ₁) :
    ∃ number replacement null last σ₂ σ₃ σ₄, Yields addUnit σ number σ₂ ∧
      m.replacement i text = .ok replacement ∧
      Yields (addTransform (.null (Element.utterance text).display m.display number)) σ₂ null σ₃ ∧
      Yields (if replacement.isEmpty then pure null else addTransform
        (.ordinary replacement (Element.utterance text).display m.display number)) σ₃ last σ₄ ∧
      Yields (spell true (some (null, last)) text s) σ₄ t σ₁ := by
  obtain ⟨number, σ₂, hunit, h₂⟩ := yields_bind.mp h
  obtain ⟨replacement, _, hlift, h₃⟩ := yields_bind.mp h₂
  obtain ⟨hreplacement, rfl⟩ := yields_lift.mp hlift
  obtain ⟨null, σ₃, hnull, h₄⟩ := yields_bind.mp h₃
  refine ⟨number, replacement, null, ?_⟩
  cases hempty : replacement.isEmpty
  all_goals
    rw [hempty] at h₄
    obtain ⟨last, σ₄, hlast, hspell⟩ := yields_bind.mp h₄
    exact ⟨last, σ₂, σ₃, σ₄, hunit, hreplacement, hnull, hlast, hspell⟩

/-- A set is read along its trie, up to a new state. In the target it begins a unit. -/
theorem yields_readSet (h : Yields (readSet i e m s) σ t σ₁) :
    ∃ trie u σ₂ σ₃, i.trie e = .ok trie ∧ Yields (addState m.isSome) σ t σ₂ ∧
      Yields (m.mapM (beginUnit e)) σ₂ u σ₃ ∧
      Yields (readForest i u t [] trie.forest s) σ₃ () σ₁ := by
  obtain ⟨trie, _, hlift, h₂⟩ := yields_bind.mp h
  obtain ⟨htrie, rfl⟩ := yields_lift.mp hlift
  obtain ⟨exit, σ₂, hexit, h₃⟩ := yields_bind.mp h₂
  obtain ⟨u, σ₃, hunit, h₄⟩ := yields_bind.mp h₃
  obtain ⟨_, _, hread, h₅⟩ := yields_bind.mp h₄
  obtain ⟨rfl, rfl⟩ := yields_pure.mp h₅
  exact ⟨trie, u, σ₂, σ₃, htrie, hexit, hunit, hread⟩

/-! ## Groups -/

/-- The part of an optional element before its body: a state where the element ends, one where the
body begins, and silent edges to both. -/
def forkGroup (m : Option Emission) (s : StateId) : Assemble (StateId × StateId) := do
  let bypass ← addState m.isSome
  let inner ← addState m.isSome
  addSilent s inner
  addSilent s bypass
  return (bypass, inner)

/-- An optional element ends where the end of its body passes to. -/
theorem yields_optional (h : Yields (readElement c m follow (.optional body) s) σ t σ₁) :
    ∃ inner ms last σ₂ σ₃, Yields (forkGroup m s) σ (t, inner) σ₂ ∧
      c.emissions m body = .ok ms ∧ Yields (readSequence c ms follow body inner) σ₂ last σ₃ ∧
      Yields (addSilent last t) σ₃ () σ₁ := by
  have hgroup : readElement c m follow (.optional body) s = (do
      let (bypass, inner) ← forkGroup m s
      let ms ← (c.emissions m body : Except RuleError (List Emission))
      let last ← readSequence c ms follow body inner
      addSilent last bypass
      return bypass) := by
    simp [readElement, forkGroup]
  rw [hgroup] at h
  obtain ⟨⟨bypass, inner⟩, σ₂, hfork, h₂⟩ := yields_bind.mp h
  obtain ⟨ms, _, hlift, h₃⟩ := yields_bind.mp h₂
  obtain ⟨hms, rfl⟩ := yields_lift.mp hlift
  obtain ⟨last, σ₃, hsequence, h₄⟩ := yields_bind.mp h₃
  obtain ⟨_, _, hlast, h₅⟩ := yields_bind.mp h₄
  obtain ⟨rfl, rfl⟩ := yields_pure.mp h₅
  exact ⟨inner, ms, last, σ₂, σ₃, hfork, hms, hsequence, hlast⟩

/-- A choice ends in a state that is made first; what it forbids, it forbids last. -/
theorem yields_disjunction (h : Yields (readElement c m follow (.disjunction branches) s) σ t σ₁) :
    ∃ join first σ₂ σ₃, Yields (addState m.isSome) σ join σ₂ ∧
      Yields (readBranches c m follow join branches s) σ₂ first σ₃ ∧
      Yields (if first.nullable then return join
        else do
          rejectAll s (follow.symbols.filter fun d => !first.symbols.contains d).toList
          return join) σ₃ t σ₁ := by
  rw [readElement] at h
  obtain ⟨join, σ₂, hjoin, h₂⟩ := yields_bind.mp h
  obtain ⟨first, σ₃, hbranches, h₃⟩ := yields_bind.mp h₂
  exact ⟨join, first, σ₂, σ₃, hjoin, hbranches, h₃⟩

theorem readElement_boundary (edge : WordEdge) :
    readElement c m follow (.boundary edge) s = (do
      let next ← addState m.isSome
      addEdge s edge.symbol next none
      return next) := by
  cases edge <;> rw [readElement] <;> rfl

/-- An edge of the word is one arc to a new state. -/
theorem yields_boundary (h : Yields (readElement c m follow (.boundary edge) s) σ t σ₁) :
    ∃ σ₂, Yields (addState m.isSome) σ t σ₂ ∧ Yields (addEdge s edge.symbol t none) σ₂ () σ₁ := by
  rw [readElement_boundary] at h
  obtain ⟨next, σ₂, hstate, h₂⟩ := yields_bind.mp h
  obtain ⟨_, _, harc, h₃⟩ := yields_bind.mp h₂
  obtain ⟨rfl, rfl⟩ := yields_pure.mp h₃
  exact ⟨σ₂, hstate, harc⟩

/-! ## Branches -/

/-- Begins a branch in a new state. -/
def beginBranch (m : Option Emission) (s : StateId) : Assemble StateId := do
  let fork ← addState m.isSome
  addSilent s fork
  return fork

/-- Assembles one branch of a choice that begins in the state `s`, up to the state `join`. -/
def readBranch (c : Setting) (m : Option Emission) (follow : FirstSet) (join s : StateId) :
    List Element → Assemble Unit
  | [] => addSilent s join
  | e :: es => do
    let fork ← beginBranch m s
    let ms ← (c.emissions m (e :: es) : Except RuleError (List Emission))
    let last ← readSequence c ms follow (e :: es) fork
    addSilent last join

/-- A branch that is not empty begins in a new state, and its end passes to where the branches
end. -/
theorem yields_readBranch_cons (h : Yields (readBranch c m follow join s (e :: es)) σ () σ₁) :
    ∃ fork ms last σ₂ σ₃, Yields (beginBranch m s) σ fork σ₂ ∧
      c.emissions m (e :: es) = .ok ms ∧
      Yields (readSequence c ms follow (e :: es) fork) σ₂ last σ₃ ∧
      Yields (addSilent last join) σ₃ () σ₁ := by
  obtain ⟨fork, σ₂, hbegin, h₂⟩ := yields_bind.mp h
  obtain ⟨ms, _, hlift, h₃⟩ := yields_bind.mp h₂
  obtain ⟨hms, rfl⟩ := yields_lift.mp hlift
  obtain ⟨last, σ₃, hsequence, hlast⟩ := yields_bind.mp h₃
  exact ⟨fork, ms, last, σ₂, σ₃, hbegin, hms, hsequence, hlast⟩

/-- The branches are assembled one after the other, and their first sets are put together. -/
theorem yields_readBranches_cons
    (h : Yields (readBranches c m follow join (branch :: branches) s) σ first σ₁) :
    ∃ head rest σ₂, FirstSet.ofSequence c.inventory c.first branch = .ok head ∧
      Yields (readBranch c m follow join s branch) σ () σ₂ ∧
      Yields (readBranches c m follow join branches s) σ₂ rest σ₁ ∧ first = head.orElse rest := by
  have hbranch : readBranches c m follow join (branch :: branches) s = (do
      let first ← (FirstSet.ofSequence c.inventory c.first branch : Except RuleError FirstSet)
      readBranch c m follow join s branch
      let rest ← readBranches c m follow join branches s
      return first.orElse rest) := by
    cases branch with
    | nil => rfl
    | cons e es => simp [readBranches, readBranch, beginBranch]
  rw [hbranch] at h
  obtain ⟨head, _, hlift, h₂⟩ := yields_bind.mp h
  obtain ⟨hhead, rfl⟩ := yields_lift.mp hlift
  obtain ⟨_, σ₂, hbranch, h₃⟩ := yields_bind.mp h₂
  obtain ⟨rest, _, hrest, h₄⟩ := yields_bind.mp h₃
  obtain ⟨rfl, rfl⟩ := yields_pure.mp h₄
  exact ⟨head, rest, σ₂, hhead, hbranch, hrest, rfl⟩

/-! ## Sequences -/

/-- An element is assembled with the first set of what follows it, and the rest behind it. -/
theorem yields_readSequence_cons (h : Yields (readSequence c ms follow (e :: es) s) σ t σ₁) :
    ∃ after next σ₂, c.followOf es follow = .ok after ∧
      Yields (readElement c ms.head? after e s) σ next σ₂ ∧
      Yields (readSequence c ms.tail follow es next) σ₂ t σ₁ := by
  rw [readSequence] at h
  obtain ⟨after, _, hlift, h₂⟩ := yields_bind.mp h
  obtain ⟨hafter, rfl⟩ := yields_lift.mp hlift
  obtain ⟨next, σ₂, helement, hrest⟩ := yields_bind.mp h₂
  exact ⟨after, next, σ₂, hafter, helement, hrest⟩

end SoundChange.Assembly
