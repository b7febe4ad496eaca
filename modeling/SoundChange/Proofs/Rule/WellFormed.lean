import SoundChange.Rule
import Mathlib.Tactic.Common

/-!
# Well-formed rules

`Element.Every p` says that an element and all elements within it have a property. `Rule.WellFormed`
is what the results about rules rely on: no text in a target or an environment is empty, a target
has no placeholder and no boundary, and a result consists of texts and signed features.
-/

namespace SoundChange

namespace Element

mutual

/-- A property of an element and of all elements within it. -/
def Every (p : Element → Prop) : Element → Prop
  | utterance text => p (utterance text)
  | set ref => p (set ref)
  | compound refs => p (compound refs)
  | optional body => p (optional body) ∧ EveryOf p body
  | disjunction branches => p (disjunction branches) ∧ EveryAmong p branches
  | boundary edge => p (boundary edge)
  | placeholder => p placeholder

/-- The same for a sequence. -/
def EveryOf (p : Element → Prop) : List Element → Prop
  | [] => True
  | e :: es => Every p e ∧ EveryOf p es

/-- The same for some branches. -/
def EveryAmong (p : Element → Prop) : List (List Element) → Prop
  | [] => True
  | branch :: branches => EveryOf p branch ∧ EveryAmong p branches

end

variable {p q : Element → Prop}

mutual

theorem Every.imp (hpq : ∀ e, p e → q e) : ∀ {e : Element}, e.Every p → e.Every q
  | utterance _, h => hpq _ h
  | set _, h => hpq _ h
  | compound _, h => hpq _ h
  | optional _, h => ⟨hpq _ h.1, EveryOf.imp hpq h.2⟩
  | disjunction _, h => ⟨hpq _ h.1, EveryAmong.imp hpq h.2⟩
  | boundary _, h => hpq _ h
  | placeholder, h => hpq _ h

theorem EveryOf.imp (hpq : ∀ e, p e → q e) : ∀ {es : List Element}, EveryOf p es → EveryOf q es
  | [], _ => trivial
  | _ :: _, h => ⟨Every.imp hpq h.1, EveryOf.imp hpq h.2⟩

theorem EveryAmong.imp (hpq : ∀ e, p e → q e) :
    ∀ {branches : List (List Element)}, EveryAmong p branches → EveryAmong q branches
  | [], _ => trivial
  | _ :: _, h => ⟨EveryOf.imp hpq h.1, EveryAmong.imp hpq h.2⟩

end

mutual

theorem Every.and : ∀ {e : Element}, e.Every p → e.Every q → e.Every fun e => p e ∧ q e
  | utterance _, hp, hq => ⟨hp, hq⟩
  | set _, hp, hq => ⟨hp, hq⟩
  | compound _, hp, hq => ⟨hp, hq⟩
  | optional _, hp, hq => ⟨⟨hp.1, hq.1⟩, EveryOf.and hp.2 hq.2⟩
  | disjunction _, hp, hq => ⟨⟨hp.1, hq.1⟩, EveryAmong.and hp.2 hq.2⟩
  | boundary _, hp, hq => ⟨hp, hq⟩
  | placeholder, hp, hq => ⟨hp, hq⟩

theorem EveryOf.and : ∀ {es : List Element}, EveryOf p es → EveryOf q es →
    EveryOf (fun e => p e ∧ q e) es
  | [], _, _ => trivial
  | _ :: _, hp, hq => ⟨Every.and hp.1 hq.1, EveryOf.and hp.2 hq.2⟩

theorem EveryAmong.and : ∀ {branches : List (List Element)}, EveryAmong p branches →
    EveryAmong q branches → EveryAmong (fun e => p e ∧ q e) branches
  | [], _, _ => trivial
  | _ :: _, hp, hq => ⟨EveryOf.and hp.1 hq.1, EveryAmong.and hp.2 hq.2⟩

end

theorem Every.self {e : Element} (h : e.Every p) : p e := by
  cases e with
  | optional => exact h.1
  | disjunction => exact h.1
  | _ => exact h

theorem everyOf_iff {es : List Element} : EveryOf p es ↔ ∀ e ∈ es, e.Every p := by
  induction es with
  | nil => simp [EveryOf]
  | cons e es ih => rw [EveryOf, ih, List.forall_mem_cons]

theorem everyAmong_iff {branches : List (List Element)} :
    EveryAmong p branches ↔ ∀ branch ∈ branches, EveryOf p branch := by
  induction branches with
  | nil => simp [EveryAmong]
  | cons branch branches ih => rw [EveryAmong, ih, List.forall_mem_cons]

/-- What an element of a target must be: no empty text, no placeholder and no boundary. -/
structure InTarget (e : Element) : Prop where
  ne_nil : e ≠ utterance []
  ne_placeholder : e ≠ placeholder
  not_boundary : e.isBoundary = false

/-- A text or a signed feature. -/
def Plain (e : Element) : Prop :=
  (∃ text, e = utterance text) ∨ ∃ present name, e = set (.feature present name)

end Element

/-- What is true of every rule that can be read. -/
structure Rule.WellFormed (rule : Rule) : Prop where
  target : Element.EveryOf Element.InTarget rule.target
  result : ∀ e ∈ rule.result, e.Plain
  environment : Element.EveryOf (· ≠ .utterance []) rule.environment

end SoundChange
