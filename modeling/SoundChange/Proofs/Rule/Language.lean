import SoundChange.Proofs.Automaton.Subset
import SoundChange.Proofs.Rule.Construction
import SoundChange.SoundLaw
import Mathlib.Computability.Language

/-!
# The language of a rule

What a rule matches, as a language over symbols: a sequence is the product of its elements, a choice
the sum of its branches. `Rule.accepts_iff_mem_language` says that the table of a rule accepts just
that.

`Automaton.futures s` are the words that can be read from the state `s` up to a final one. A state
that is not final has the futures that its arcs lead to (`futures_eq_arcs`), so a construct laid out
from `s` to `t` gives an equation: the futures of `s` are what it matches, followed by the futures
of `t` (`Layout.futures_of_laid`).
-/

namespace SoundChange

/-- The words that are segments of a set, apart from the empty one. -/
def Inventory.segments (i : Inventory) (e : Element) : Language Symbol :=
  {w | ∃ members, i.membersOf e = .ok members ∧ ∃ m ∈ members, m ≠ [] ∧ w = Symbol.ofText m}

mutual

/-- What an element matches, given what the placeholder matches. -/
def Element.language (i : Inventory) (target : Language Symbol) : Element → Language Symbol
  | .utterance text => {Symbol.ofText text}
  | .set ref => i.segments (.set ref)
  | .compound refs => i.segments (.compound refs)
  | .optional body => languageAll i target body + 1
  | .disjunction branches => languageAny i target branches
  | .boundary edge => {[edge.symbol]}
  | .placeholder => target

/-- What a sequence matches. -/
def Element.languageAll (i : Inventory) (target : Language Symbol) :
    List Element → Language Symbol
  | [] => 1
  | e :: es => language i target e * languageAll i target es

/-- What any of some branches matches. -/
def Element.languageAny (i : Inventory) (target : Language Symbol) :
    List (List Element) → Language Symbol
  | [] => 0
  | branch :: branches => languageAll i target branch + languageAny i target branches

end

/-- What the target of a rule matches; a placeholder in a target stands for nothing. -/
def Rule.targetLanguage (i : Inventory) (rule : Rule) : Language Symbol :=
  Element.languageAll i 1 rule.target

/-- What a rule matches: its environment with the target in the place of the placeholder. With
`strip`, optional elements at the end of the environment are left out. -/
def Rule.language (i : Inventory) (rule : Rule) (strip : Bool) : Language Symbol :=
  Element.languageAll i (rule.targetLanguage i) (rule.environmentFor strip)

namespace Automaton

variable {a : Automaton} {s t : StateId} {w : List Symbol} {b : Arc} {arcs : List Arc}

/-- What can be read from a state up to a final one. -/
def futures (a : Automaton) (s : StateId) : Language Symbol := {w | a.Accepts s w}

/-- What is read along an edge. -/
def letter (c : Symbol) : Language Symbol := if c = .lambda then 1 else {[c]}

/-- What can be read from a state by taking an arc first. -/
def futuresAlong (a : Automaton) (b : Arc) : Language Symbol := letter b.symbol * a.futures b.target

theorem letter_lambda : letter .lambda = 1 := if_pos rfl

theorem letter_char (c : Char) : letter (.char c) = {[.char c]} := if_neg nofun

theorem letter_edge (edge : WordEdge) : letter edge.symbol = {[edge.symbol]} :=
  if_neg (by cases edge <;> nofun)

theorem letter_of_ne {c : Symbol} (hc : c ≠ .lambda) : letter c = {[c]} := if_neg hc

theorem mem_letter_mul {c : Symbol} {L : Language Symbol} : w ∈ letter c * L ↔
    c = .lambda ∧ w ∈ L ∨ c ≠ .lambda ∧ ∃ v ∈ L, w = c :: v := by
  by_cases hc : c = .lambda
  · subst hc
    simp [letter_lambda]
  · rw [letter_of_ne hc, Language.mem_mul]
    constructor
    · rintro ⟨u, rfl, v, hv, rfl⟩
      exact .inr ⟨hc, v, hv, rfl⟩
    · rintro (⟨h, -⟩ | ⟨-, v, hv, rfl⟩)
      · exact absurd h hc
      · exact ⟨_, rfl, v, hv, rfl⟩

/-- A word is accepted where the state is final, or along one of its arcs. -/
theorem mem_futures_iff : w ∈ a.futures s ↔
    w = [] ∧ a.isFinal s = true ∨ ∃ b ∈ a.arcs s, w ∈ a.futuresAlong b := by
  constructor
  · rintro ⟨t, ⟨steps, hrun⟩, hfinal⟩
    cases hrun with
    | stay => exact .inl ⟨rfl, hfinal⟩
    | silent he hrun =>
      obtain ⟨b, hb, hsymbol, rfl⟩ := mem_edgesOf_iff.mp he
      exact .inr ⟨b, hb, mem_letter_mul.mpr (.inl ⟨hsymbol, t, ⟨_, hrun⟩, hfinal⟩)⟩
    | read hc he hrun =>
      obtain ⟨b, hb, rfl, rfl⟩ := mem_edgesOf_iff.mp he
      exact .inr ⟨b, hb, mem_letter_mul.mpr (.inr ⟨hc, _, ⟨t, ⟨_, hrun⟩, hfinal⟩, rfl⟩)⟩
  · rintro (⟨rfl, hfinal⟩ | ⟨b, hb, hw⟩)
    · exact ⟨s, .refl a s, hfinal⟩
    · have he := (mem_arcs.mp hb).1
      rcases mem_letter_mul.mp hw with ⟨hsymbol, t, hreads, hfinal⟩ |
        ⟨hc, v, ⟨t, hreads, hfinal⟩, rfl⟩
      · rw [hsymbol] at he
        exact ⟨t, hreads.silent he, hfinal⟩
      · exact ⟨t, hreads.read hc he, hfinal⟩

theorem mem_sum {w : List Symbol} : ∀ {ls : List (Language Symbol)}, w ∈ ls.sum ↔ ∃ l ∈ ls, w ∈ l
  | [] => by simp
  | l :: ls => by rw [List.sum_cons, Language.mem_add, mem_sum]; simp

/-- The futures of a state that is not final are those along its arcs. -/
theorem futures_eq_arcs {default : Option TransformId} (h : a.view s = { arcs, default }) :
    a.futures s = (arcs.map a.futuresAlong).sum := by
  have harcs : a.arcs s = arcs := congrArg View.arcs h
  have hfinal : a.isFinal s = false := congrArg View.isFinal h
  ext w
  rw [mem_futures_iff, harcs, hfinal, mem_sum]
  simp

theorem futuresAlong_silent (t : StateId) : a.futuresAlong (Layout.silent t) = a.futures t := by
  rw [futuresAlong, letter_lambda, one_mul]

theorem futures_of_silent (h : a.view s = { arcs := [Layout.silent t] }) :
    a.futures s = a.futures t := by
  rw [futures_eq_arcs h, List.map_singleton, List.sum_singleton, futuresAlong_silent]

/-- A state without arcs has no futures unless it is final. -/
theorem futures_of_blank (h : a.view s = {}) : a.futures s = 0 := futures_eq_arcs h

theorem futures_of_final (h : a.view s = { isFinal := true }) : a.futures s = 1 := by
  have harcs : a.arcs s = [] := congrArg View.arcs h
  have hfinal : a.isFinal s = true := congrArg View.isFinal h
  ext w
  rw [mem_futures_iff, harcs, hfinal, Language.mem_one]
  simp

end Automaton

namespace Layout

open Automaton (futures futuresAlong)

variable {a : Automaton} {i : Inventory} {s t exit : StateId} {m : Option Emission}
  {u : Option Assembly.TargetUnit}

/-! ## Texts and sets -/

theorem singleton_cons_mul (c : Symbol) (w : List Symbol) (L : Language Symbol) :
    ({[c]} : Language Symbol) * ({w} * L) = {c :: w} * L := by
  ext v
  simp only [Language.mem_mul]
  constructor
  · rintro ⟨_, rfl, _, ⟨_, rfl, x, hx, rfl⟩, rfl⟩
    exact ⟨_, rfl, x, hx, rfl⟩
  · rintro ⟨_, rfl, x, hx, rfl⟩
    exact ⟨_, rfl, _, ⟨_, rfl, x, hx, rfl⟩, rfl⟩

theorem futures_of_spelled {tr : Option (TransformId × TransformId)} :
    ∀ {text : Text} {s : StateId}, Spelled a tr text s t →
      a.futures s = {Symbol.ofText text} * a.futures t
  | [], s, h => by
    obtain rfl : t = s := h
    exact (one_mul _).symm
  | c :: cs, s, h => by
    obtain ⟨next, hview, hrest⟩ := h
    rw [Automaton.futures_eq_arcs hview, List.map_singleton, List.sum_singleton,
      Automaton.futuresAlong, Automaton.letter_char, futures_of_spelled hrest, singleton_cons_mul]
    rfl

/-- The segments that a forest holds. -/
def held (t : Forest) : Language Symbol := {w | ∃ v, t.Has v ∧ w = Symbol.ofText v}

theorem held_branch (c : Char) (isMember : Bool) (below beside : Forest) :
    held (.branch c isMember below beside) =
      {[.char c]} * (held below + if isMember then 1 else 0) + held beside := by
  ext w
  rw [Language.mem_add, Language.mem_mul]
  constructor
  · rintro ⟨v, ⟨x, rfl, ⟨rfl, hmember⟩ | hx⟩ | hv, rfl⟩
    · exact .inl ⟨_, rfl, [], .inr (by rw [if_pos hmember]; rfl), rfl⟩
    · exact .inl ⟨_, rfl, _, .inl ⟨x, hx, rfl⟩, rfl⟩
    · exact .inr ⟨v, hv, rfl⟩
  · rintro (⟨_, rfl, _, ⟨x, hx, rfl⟩ | h, rfl⟩ | ⟨v, hv, rfl⟩)
    · exact ⟨c :: x, .inl ⟨x, rfl, .inr hx⟩, rfl⟩
    · split at h
      · rename_i hmember
        obtain rfl := (Language.mem_one _).mp h
        exact ⟨[c], .inl ⟨[], rfl, .inl ⟨rfl, hmember⟩⟩, rfl⟩
      · exact absurd h (Language.notMem_zero _)
    · exact ⟨v, .inr hv, rfl⟩

theorem held_empty : held .empty = 0 := by
  ext w
  constructor
  · rintro ⟨v, hv, -⟩
    exact hv.elim
  · exact fun h => absurd h (Language.notMem_zero _)

theorem futures_of_branched : ∀ {t : Forest} {path : Text} {arcs : List Arc}, t.WellFormed →
    Branched a i u exit path t arcs →
    (arcs.map a.futuresAlong).sum = held t * a.futures exit
  | .empty, path, arcs, _, h => by
    obtain rfl : arcs = [] := h
    rw [held_empty, zero_mul]
    rfl
  | .branch c isMember below beside, path, arcs, hwf, h => by
    obtain ⟨target, tr, rest, rfl, hreaches, hrest⟩ := h
    obtain ⟨hmember, -, hwfBelow, hwfBeside⟩ := hwf
    have htarget : a.futures target =
        (held below + if isMember then 1 else 0) * a.futures exit := by
      cases hbelow : below.isEmpty with
      | true =>
        rw [Reaches, hbelow, if_pos rfl] at hreaches
        cases below with
        | empty => rw [hreaches.1, held_empty, hmember rfl, if_pos rfl, zero_add, one_mul]
        | branch => cases hbelow
      | false =>
        rw [Reaches, hbelow, if_neg Bool.false_ne_true] at hreaches
        obtain ⟨-, inner, default, hinner, hview⟩ := hreaches
        have ih := futures_of_branched hwfBelow hinner
        cases isMember with
        | true =>
          rw [Automaton.futures_eq_arcs hview.2, List.map_append, List.sum_append, ih,
            List.map_singleton, List.sum_singleton, Automaton.futuresAlong_silent, if_pos rfl,
            add_mul, one_mul]
        | false =>
          rw [Automaton.futures_eq_arcs hview, ih, if_neg Bool.false_ne_true, add_zero]
    rw [List.map_cons, List.sum_cons, futures_of_branched hwfBeside hrest, held_branch, add_mul,
      Automaton.futuresAlong, Automaton.letter_char, htarget, mul_assoc]

theorem held_ofSet {e : Element} {members : SortedSet Text} (h : i.membersOf e = .ok members) :
    held (Trie.ofSet members).forest = i.segments e := by
  ext w
  constructor
  · rintro ⟨v, hv, rfl⟩
    obtain ⟨hv, hne⟩ := Trie.has_ofSet.mp hv
    exact ⟨members, h, v, hv, hne, rfl⟩
  · rintro ⟨members', h', v, hv, hne, rfl⟩
    rw [h] at h'
    cases h'
    exact ⟨v, Trie.has_ofSet.mpr ⟨hv, hne⟩, rfl⟩

theorem futures_of_laidText {text : Text} {n n' : Nat} (h : LaidText a i text m s t n n') :
    a.futures s = {Symbol.ofText text} * a.futures t := by
  cases m with
  | none => exact futures_of_spelled h.2
  | some m =>
    obtain ⟨-, u, last, -, -, h⟩ := h
    exact futures_of_spelled h

theorem futures_of_laidSet {e : Element} {n n' : Nat} (h : LaidSet a i e m s t n n') :
    a.futures s = i.segments e * a.futures t := by
  obtain ⟨trie, u, arcs, htrie, -, hbranched, hview⟩ := h
  obtain ⟨members, hmembers, rfl⟩ := Inventory.trie_eq_ok.mp htrie
  rw [Automaton.futures_eq_arcs hview,
    futures_of_branched (Trie.wellFormed_ofSet members) hbranched, held_ofSet hmembers]

/-! ## Elements -/

section Elements

variable {c : Assembly.Setting} {target : Plan} {P : Language Symbol}

theorem nil_of_emissions {m : Option Emission} {ms : List Emission} {body : List Element}
    (h : c.emissions m body = .ok ms) (hm : m = none ∨ P = 1) : ms = [] ∨ P = 1 := by
  refine hm.imp_left ?_
  rintro rfl
  exact (Except.ok.inj h).symm

/-- A choice has the futures of the states where its branches begin: what it forbids leads
nowhere. -/
theorem futures_of_forks {forks : List StateId} {symbols : List Symbol}
    (hreject : a.view Automaton.reject = {})
    (h : a.view s = { arcs := (forks.map silent ++ symbols.map reject).foldl Arc.addTo [] }) :
    a.futures s = (forks.map a.futures).sum := by
  ext w
  rw [Automaton.futures_eq_arcs h, Automaton.mem_sum, Automaton.mem_sum]
  constructor
  · rintro ⟨_, hl, hw⟩
    obtain ⟨b, hb, rfl⟩ := List.mem_map.mp hl
    rcases mem_forks.mp hb with ⟨f, hf, rfl⟩ | ⟨_, -, rfl⟩
    · rw [Automaton.futuresAlong_silent] at hw
      exact ⟨_, List.mem_map_of_mem hf, hw⟩
    · rw [Automaton.futuresAlong, Automaton.futures_of_blank hreject, mul_zero] at hw
      exact absurd hw (Language.notMem_zero _)
  · rintro ⟨_, hl, hw⟩
    obtain ⟨f, hf, rfl⟩ := List.mem_map.mp hl
    refine ⟨a.futuresAlong (silent f), List.mem_map_of_mem ?_, ?_⟩
    · exact mem_forks.mpr (.inl ⟨f, hf, rfl⟩)
    · rwa [Automaton.futuresAlong_silent]

mutual

/-- What is laid out from `s` to `t` gives `s` the futures of `t` behind what it matches. -/
theorem futures_of_laid (hreject : a.view Automaton.reject = {})
    (hT : ∀ {follow s t n n'}, target follow s t n n' → a.futures s = P * a.futures t) :
    ∀ (e : Element) {m : Option Emission} {follow : FirstSet} {s t : StateId} {n n' : Nat},
      m = none ∨ P = 1 → Laid c a target m follow e s t n n' →
      a.futures s = e.language c.inventory P * a.futures t
  | .utterance text, m, follow, s, t, n, n', _, h => by
    rw [Laid] at h
    exact futures_of_laidText h
  | .set ref, m, follow, s, t, n, n', _, h => by
    rw [Laid] at h
    exact futures_of_laidSet h
  | .compound refs, m, follow, s, t, n, n', _, h => by
    rw [Laid] at h
    exact futures_of_laidSet h
  | .optional body, m, follow, s, t, n, n', hm, h => by
    rw [Laid] at h
    obtain ⟨inner, last, ms, hview, hms, hbody, hlast⟩ := h
    have hbody := futures_of_laidAll hreject hT body (nil_of_emissions hms hm) hbody
    rw [Automaton.futures_of_silent hlast] at hbody
    rw [Automaton.futures_eq_arcs hview, Element.language, add_mul, one_mul, ← hbody]
    simp [Automaton.futuresAlong_silent]
  | .disjunction branches, m, follow, s, t, n, n', hm, h => by
    rw [Laid] at h
    obtain ⟨forks, first, hbranches, -, hview⟩ := h
    rw [futures_of_forks hreject hview, Element.language,
      futures_of_laidBranches hreject hT branches hm hbranches]
  | .boundary edge, m, follow, s, t, n, n', _, h => by
    rw [Laid] at h
    rw [Automaton.futures_eq_arcs h.2, List.map_singleton, List.sum_singleton,
      Automaton.futuresAlong, Automaton.letter_edge, Element.language]
  | .placeholder, m, follow, s, t, n, n', hm, h => by
    rw [Laid] at h
    rw [Element.language]
    rcases hm with rfl | rfl
    · exact hT h
    · split at h
      · rw [h.1, one_mul]
      · exact hT h

theorem futures_of_laidAll (hreject : a.view Automaton.reject = {})
    (hT : ∀ {follow s t n n'}, target follow s t n n' → a.futures s = P * a.futures t) :
    ∀ (es : List Element) {ms : List Emission} {follow : FirstSet} {s t : StateId} {n n' : Nat},
      ms = [] ∨ P = 1 → LaidAll c a target ms follow es s t n n' →
      a.futures s = Element.languageAll c.inventory P es * a.futures t
  | [], ms, follow, s, t, n, n', _, h => by
    rw [LaidAll] at h
    rw [h.1, Element.languageAll, one_mul]
  | e :: es, ms, follow, s, t, n, n', hms, h => by
    rw [LaidAll] at h
    obtain ⟨after, mid, k, -, he, hes⟩ := h
    have hhead : ms.head? = none ∨ P = 1 := hms.imp_left fun h => by rw [h]; rfl
    have htail : ms.tail = [] ∨ P = 1 := hms.imp_left fun h => by rw [h]; rfl
    rw [futures_of_laid hreject hT e hhead he, futures_of_laidAll hreject hT es htail hes,
      Element.languageAll, mul_assoc]

theorem futures_of_laidBranches (hreject : a.view Automaton.reject = {})
    (hT : ∀ {follow s t n n'}, target follow s t n n' → a.futures s = P * a.futures t) :
    ∀ (branches : List (List Element)) {m : Option Emission} {follow : FirstSet} {join : StateId}
      {forks : List StateId} {n n' : Nat}, m = none ∨ P = 1 →
      LaidBranches c a target m follow join branches forks n n' →
      (forks.map a.futures).sum = Element.languageAny c.inventory P branches * a.futures join
  | [], m, follow, join, forks, n, n', _, h => by
    rw [LaidBranches] at h
    rw [h.1, Element.languageAny, zero_mul]
    rfl
  | [] :: branches, m, follow, join, forks, n, n', hm, h => by
    rw [LaidBranches] at h
    obtain ⟨rest, rfl, hrest⟩ := h
    rw [List.map_cons, List.sum_cons, futures_of_laidBranches hreject hT branches hm hrest,
      Element.languageAny, Element.languageAll, add_mul, one_mul]
  | (e :: es) :: branches, m, follow, join, forks, n, n', hm, h => by
    rw [LaidBranches] at h
    obtain ⟨fork, rest, last, ms, k, rfl, hms, hbody, hlast, hrest⟩ := h
    rw [List.map_cons, List.sum_cons, futures_of_laidBranches hreject hT branches hm hrest,
      futures_of_laidAll hreject hT (e :: es) (nil_of_emissions hms hm) hbody,
      Automaton.futures_of_silent hlast, Element.languageAny, add_mul]

end

end Elements

end Layout

namespace Rule

variable {i : Inventory} {rule : Rule} {a : Automaton} {strip : Bool} {t : Table}
  {options : CompileOptions}

/-- A target that is laid out is read before all that is read behind it. -/
theorem futures_of_laidTarget {follow : FirstSet} {s e : StateId} {n n' : Nat}
    (hreject : a.view Automaton.reject = {}) (h : Layout.LaidTarget i rule a follow s e n n') :
    a.futures s = rule.targetLanguage i * a.futures e := by
  obtain ⟨ms, -, hlaid⟩ := h
  exact Layout.futures_of_laidAll hreject (fun h => by rw [h.1, one_mul]) rule.target (.inr rfl)
    hlaid

/-- The automaton of a rule accepts the rule's language. -/
theorem futures_start (h : rule.automaton i strip = .ok a) :
    a.futures Automaton.start = rule.language i strip := by
  obtain ⟨-, hreject, last, n, hlast, hlaid⟩ := Assembly.layout_of_automaton h
  rw [Layout.futures_of_laidAll hreject (futures_of_laidTarget hreject) _ (.inl rfl) hlaid,
    Automaton.futures_of_final hlast, mul_one]
  rfl

/-- A table that carries out a rule is made from the automaton of the rule. -/
theorem table_eq_ok (h : rule.table i options = .ok t) :
    rule.automaton i options.stripOptionals = .ok t.automaton ∧
      Table.ofAutomaton t.automaton options.maxStates = .ok t := by
  rw [Rule.table] at h
  cases ha : rule.automaton i options.stripOptionals with
  | error e =>
    rw [ha] at h
    cases h
  | ok a =>
    rw [ha] at h
    dsimp only at h
    split at h
    · rename_i table htable
      cases h
      rw [Table.automaton_eq htable]
      exact ⟨rfl, htable⟩
    · cases h

/-- The table of a rule accepts what the rule matches. -/
theorem accepts_iff_mem_language {w : List Symbol} (h : rule.table i options = .ok t) :
    t.accepts w = true ↔ w ∈ rule.language i options.stripOptionals := by
  obtain ⟨ha, ht⟩ := table_eq_ok h
  rw [Table.accepts_iff (Assembly.layout_of_automaton ha).1 ht, ← futures_start ha]
  rfl

/-- The table of a rule leads to a final state just on the words of the rule's language. -/
theorem walk_isFinal_iff_mem_language (h : rule.table i options = .ok t) (w : List Symbol) :
    (∃ id, t.walk w = some id ∧ t.isFinal id = true) ↔
      w ∈ rule.language i options.stripOptionals := by
  rw [← accepts_iff_mem_language h, Table.accepts, Option.any_eq_true]

/-- `a/o/(k|#)_(l)`, with an alternative, an edge of the word and an optional element at the end. -/
def rounding : Rule where
  target := [.utterance ['a']]
  result := [.utterance ['o']]
  environment := [.disjunction [[.utterance ['k']], [.boundary .start]], .placeholder,
    .optional [.utterance ['l']]]

theorem rounding_mem_language :
    (rounding.table {} {}).isOk = true ∧ [.wordStart, .char 'a'] ∈ rounding.language {} true := by
  obtain ⟨t, ht⟩ : ∃ t, rounding.table {} {} = .ok t := exists_ok (by decide +kernel)
  have hwalk : (rounding.table {} {}).map (fun t =>
      (t.walk [.wordStart, .char 'a']).any t.isFinal) = .ok true := by decide +kernel
  rw [ht] at hwalk
  refine ⟨by decide +kernel, (walk_isFinal_iff_mem_language ht _).mp ?_⟩
  exact (Option.any_eq_true ..).mp (Except.ok.inj hwalk)

end Rule

end SoundChange
