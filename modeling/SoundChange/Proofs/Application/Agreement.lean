import SoundChange.Proofs.Application.Search
import SoundChange.Proofs.Rule.First
import SoundChange.Proofs.Statement.Readable

/-!
# Table and search agree

A choice forbids symbols where it begins, and the search obeys that, while the table knows nothing
of it. `Rule.walk_isFinal_iff_acceptingPath` says that this makes no difference.

`Automaton.findings s` are the words by which a final state is found from `s`. They are among the
futures of `s`, and may be fewer. What is laid out from `s` to `t` gives `s` all that it matches,
followed by the findings of `t` (`Layout.le_findings_of_laid`): the states of texts, sets and
optional elements forbid nothing, and what a choice forbids begins none of its branches, because its
first set covers what they match.
-/

namespace SoundChange

namespace Automaton

variable {a : Automaton} {s t : StateId} {w : List Symbol} {b : Arc} {arcs : List Arc}

/-- The words by which a final state is found. -/
def findings (a : Automaton) (s : StateId) : Language Symbol := {w | a.Finds s w}

/-- The words by which a final state is found through an arc. -/
def findingsAlong (a : Automaton) (b : Arc) : Language Symbol :=
  letter b.symbol * a.findings b.target

/-- No arc that reads a symbol leads to the rejecting state. -/
def Open (a : Automaton) (s : StateId) : Prop :=
  ∀ b ∈ a.arcs s, b.symbol ≠ .lambda → b.target ≠ reject

theorem mem_findings : w ∈ a.findings s ↔ a.Finds s w := Iff.rfl

/-- The search reads no silent symbol. -/
theorem lambda_notMem_of_finds (h : a.Finds s w) : .lambda ∉ w := by
  induction h with
  | stop => exact List.not_mem_nil
  | step hadvances _ ih =>
    rcases hadvances.reads with ⟨-, rfl⟩ | ⟨hc, rfl⟩
    · exact ih
    · rw [List.mem_cons]
      exact fun h => h.elim (fun h => hc h.symm) ih

/-- What the search reads, the automaton accepts. -/
theorem findings_le_futures : a.findings s ≤ a.futures s := by
  intro w h
  induction h with
  | stop hfinal => exact mem_futures_iff.mpr (.inl ⟨rfl, hfinal⟩)
  | step hadvances _ ih =>
    obtain ⟨b, hb, rfl, rfl⟩ := mem_edgesOf_iff.mp hadvances.edge
    refine mem_futures_iff.mpr (.inr ⟨b, hb, mem_letter_mul.mpr ?_⟩)
    rcases hadvances.reads with ⟨hc, rfl⟩ | ⟨hc, rfl⟩
    · exact .inl ⟨hc, ih⟩
    · exact .inr ⟨hc, _, ih, rfl⟩

theorem findings_reject (hreject : a.view reject = {}) : a.findings reject = 0 := by
  have harcs : a.arcs reject = [] := congrArg View.arcs hreject
  have hfinal : a.isFinal reject = false := congrArg View.isFinal hreject
  ext w
  refine ⟨fun h => ?_, fun h => absurd h (Language.notMem_zero _)⟩
  cases h with
  | stop h =>
    rw [hfinal] at h
    cases h
  | step hadvances =>
    obtain ⟨b, hb, -⟩ := mem_edgesOf_iff.mp hadvances.edge
    rw [harcs] at hb
    cases hb

theorem ne_reject_of_finds (hreject : a.view reject = {}) (h : a.Finds s w) : s ≠ reject := by
  rintro rfl
  rw [← mem_findings, findings_reject hreject] at h
  exact absurd h (Language.notMem_zero _)

/-- An arc is taken where the symbol ahead is not forbidden. -/
theorem finds_of_arc (hreject : a.view reject = {}) (hb : b ∈ a.arcs s) (hbars : ¬ a.Bars s w)
    (hw : w ∈ a.findingsAlong b) : a.Finds s w := by
  have he := (mem_arcs.mp hb).1
  rcases mem_letter_mul.mp hw with ⟨hc, hw⟩ | ⟨hc, v, hv, rfl⟩
  · exact .step ⟨hbars, he, ne_reject_of_finds hreject hw, .inl ⟨hc, rfl⟩⟩ hw
  · exact .step ⟨hbars, he, ne_reject_of_finds hreject hv, .inr ⟨hc, rfl⟩⟩ hv

theorem lambda_notMem_of_findingsAlong (hw : w ∈ a.findingsAlong b) : .lambda ∉ w := by
  rcases mem_letter_mul.mp hw with ⟨-, hw⟩ | ⟨hc, v, hv, rfl⟩
  · exact lambda_notMem_of_finds hw
  · rw [List.mem_cons]
    exact fun h => h.elim (fun h => hc h.symm) (lambda_notMem_of_finds hv)

theorem Open.not_bars (hs : a.Open s) (hw : .lambda ∉ w) : ¬ a.Bars s w := by
  rintro ⟨c, hc, he⟩
  obtain ⟨b, hb, rfl, htarget⟩ := mem_edgesOf_iff.mp he
  refine hs b hb (fun hsymbol => hw ?_) htarget
  rw [← hsymbol]
  exact List.mem_of_mem_head? hc

/-- What is found along the arcs of an open state is found from it. -/
theorem Open.arcs_le_findings (hs : a.Open s) (hreject : a.view reject = {})
    (harcs : a.arcs s = arcs) : (arcs.map a.findingsAlong).sum ≤ a.findings s := by
  intro w hw
  obtain ⟨_, hl, hw⟩ := mem_sum.mp hw
  obtain ⟨b, hb, rfl⟩ := List.mem_map.mp hl
  exact finds_of_arc hreject (harcs ▸ hb) (hs.not_bars (lambda_notMem_of_findingsAlong hw)) hw

theorem arc_le_findings (hreject : a.view reject = {}) (harcs : a.arcs s = [b]) :
    a.findingsAlong b ≤ a.findings s := by
  by_cases hb : b.target = reject
  · rw [findingsAlong, hb, findings_reject hreject, mul_zero]
    exact bot_le
  · have hs : a.Open s := by
      intro d hd _
      rw [harcs, List.mem_singleton] at hd
      rwa [hd]
    simpa using hs.arcs_le_findings hreject harcs

theorem findingsAlong_silent (t : StateId) : a.findingsAlong (Layout.silent t) = a.findings t := by
  rw [findingsAlong, letter_lambda, one_mul]

theorem silent_le_findings (hreject : a.view reject = {})
    (h : a.view s = { arcs := [Layout.silent t] }) : a.findings t ≤ a.findings s := by
  rw [← findingsAlong_silent]
  exact arc_le_findings hreject (congrArg View.arcs h)

theorem nil_mem_findings (h : a.isFinal s = true) : [] ∈ a.findings s := .stop h

end Automaton

namespace Layout

open Automaton (findings findingsAlong Open letter_char letter_edge findingsAlong_silent
  findings_reject arc_le_findings silent_le_findings)

variable {a : Automaton} {i : Inventory} {s t exit : StateId} {m : Option Emission}
  {u : Option Assembly.TargetUnit}

/-! ## Texts and sets -/

theorem le_findings_of_spelled (hreject : a.view Automaton.reject = {})
    {tr : Option (TransformId × TransformId)} : ∀ {text : Text} {s : StateId},
    Spelled a tr text s t → {Symbol.ofText text} * a.findings t ≤ a.findings s
  | [], s, h => by
    obtain rfl : t = s := h
    exact (one_mul _).le
  | c :: cs, s, h => by
    obtain ⟨next, hview, hrest⟩ := h
    calc {Symbol.ofText (c :: cs)} * a.findings t
        = {[.char c]} * ({Symbol.ofText cs} * a.findings t) := (singleton_cons_mul ..).symm
      _ ≤ {[.char c]} * a.findings next :=
        mul_le_mul_right (le_findings_of_spelled hreject hrest) _
      _ ≤ a.findings s := by
        rw [← letter_char]
        exact arc_le_findings hreject (congrArg View.arcs hview)

/-- The arcs of a forest lead to known states. -/
theorem ne_reject_of_branched (hreject : a.view Automaton.reject = {})
    (hexit : exit ≠ Automaton.reject) : ∀ {t : Forest} {path : Text} {arcs : List Arc},
    Branched a i u exit path t arcs → ∀ b ∈ arcs, b.target ≠ Automaton.reject
  | .empty, path, arcs, h, b, hb => by
    obtain rfl : arcs = [] := h
    cases hb
  | .branch c isMember below beside, path, arcs, h, b, hb => by
    obtain ⟨target, tr, rest, rfl, hreaches, hrest⟩ := h
    rcases List.mem_cons.mp hb with rfl | hb
    · cases below with
      | empty =>
        obtain ⟨rfl, -⟩ := hreaches
        exact hexit
      | branch d isMember' below' beside' =>
        obtain ⟨-, inner, default, ⟨target', tr', rest', rfl, -⟩, hview⟩ := hreaches
        rintro rfl
        cases isMember with
        | true => exact List.cons_ne_nil _ _ (congrArg View.arcs (hview.2.symm.trans hreject))
        | false => exact List.cons_ne_nil _ _ (congrArg View.arcs (hview.symm.trans hreject))
    · exact ne_reject_of_branched hreject hexit hrest b hb

/-- A state with the arcs of a forest, and perhaps one where a segment ends, is open. -/
theorem open_of_branched (hreject : a.view Automaton.reject = {}) (hexit : exit ≠ Automaton.reject)
    {t : Forest} {path : Text} {arcs : List Arc} (h : Branched a i u exit path t arcs)
    (hs : ∀ b ∈ a.arcs s, b ∈ arcs ∨ b = silent exit) : a.Open s := by
  intro b hb hsymbol
  rcases hs b hb with hb | rfl
  · exact ne_reject_of_branched hreject hexit h b hb
  · exact absurd rfl hsymbol

theorem le_findings_of_branched (hreject : a.view Automaton.reject = {})
    (hexit : exit ≠ Automaton.reject) : ∀ {t : Forest} {path : Text} {arcs : List Arc},
    t.WellFormed → Branched a i u exit path t arcs →
    held t * a.findings exit ≤ (arcs.map a.findingsAlong).sum
  | .empty, path, arcs, _, h => by
    rw [held_empty, zero_mul]
    exact bot_le
  | .branch c isMember below beside, path, arcs, hwf, h => by
    obtain ⟨target, tr, rest, rfl, hreaches, hrest⟩ := h
    obtain ⟨hmember, -, hwfBelow, hwfBeside⟩ := hwf
    have htarget : (held below + if isMember then 1 else 0) * a.findings exit ≤
        a.findings target := by
      cases hbelow : below.isEmpty with
      | true =>
        rw [Reaches, hbelow, if_pos rfl] at hreaches
        cases below with
        | empty =>
          rw [hreaches.1, held_empty, hmember rfl, if_pos rfl, zero_add, one_mul]
        | branch => cases hbelow
      | false =>
        rw [Reaches, hbelow, if_neg Bool.false_ne_true] at hreaches
        obtain ⟨-, inner, default, hinner, hview⟩ := hreaches
        have ih := le_findings_of_branched hreject hexit hwfBelow hinner
        cases isMember with
        | true =>
          have harcs : a.arcs target = inner ++ [silent exit] := congrArg View.arcs hview.2
          have hopen := open_of_branched (s := target) hreject hexit hinner fun b hb => by
            rwa [harcs, List.mem_append, List.mem_singleton] at hb
          have hle := hopen.arcs_le_findings hreject harcs
          rw [List.map_append, List.sum_append, List.map_singleton, List.sum_singleton,
            findingsAlong_silent] at hle
          rw [if_pos rfl, add_mul, one_mul]
          exact (add_le_add_left ih _).trans hle
        | false =>
          have harcs : a.arcs target = inner := congrArg View.arcs hview
          have hopen := open_of_branched hreject hexit hinner fun b hb => .inl (harcs ▸ hb)
          rw [if_neg Bool.false_ne_true, add_zero]
          exact ih.trans (hopen.arcs_le_findings hreject harcs)
    rw [List.map_cons, List.sum_cons, held_branch, add_mul, mul_assoc, findingsAlong, letter_char]
    exact add_le_add (mul_le_mul_right htarget _)
      (le_findings_of_branched hreject hexit hwfBeside hrest)

theorem le_findings_of_laidText (hreject : a.view Automaton.reject = {}) {text : Text} {n n' : Nat}
    (h : LaidText a i text m s t n n') : {Symbol.ofText text} * a.findings t ≤ a.findings s := by
  cases m with
  | none => exact le_findings_of_spelled hreject h.2
  | some m =>
    obtain ⟨-, u, last, -, -, h⟩ := h
    exact le_findings_of_spelled hreject h

theorem le_findings_of_laidSet (hreject : a.view Automaton.reject = {}) {e : Element} {n n' : Nat}
    (h : LaidSet a i e m s t n n') : i.segments e * a.findings t ≤ a.findings s := by
  obtain ⟨trie, u, arcs, htrie, -, hbranched, hview⟩ := h
  obtain ⟨members, hmembers, rfl⟩ := Inventory.trie_eq_ok.mp htrie
  have harcs : a.arcs s = arcs := congrArg View.arcs hview
  rw [← held_ofSet hmembers]
  by_cases ht : t = Automaton.reject
  · rw [ht, findings_reject hreject, mul_zero]
    exact bot_le
  · have hopen := open_of_branched hreject ht hbranched fun b hb => .inl (harcs ▸ hb)
    exact (le_findings_of_branched hreject ht (Trie.wellFormed_ofSet members) hbranched).trans
      (hopen.arcs_le_findings hreject harcs)

/-! ## Elements -/

section Elements

variable {c : Assembly.Setting} {target : Plan} {P : Language Symbol}

/-- A choice whose branches cannot be empty forbids nothing that begins a branch. -/
theorem mem_findings_of_forks (hreject : a.view Automaton.reject = {}) {forks : List StateId}
    {first follow : FirstSet} {L : Language Symbol} (hfirst : first.Covers L) {x y : List Symbol}
    (hx : x ∈ L) (hxy : x ++ y ∈ (forks.map a.findings).sum)
    (h : a.view s = { arcs :=
      (forks.map silent ++ (rejected first follow).map reject).foldl Arc.addTo [] }) :
    x ++ y ∈ a.findings s := by
  have harcs (b : Arc) : b ∈ a.arcs s ↔
      (∃ f ∈ forks, b = silent f) ∨ ∃ d ∈ rejected first follow, b = reject d := by
    rw [show a.arcs s = _ from congrArg View.arcs h, mem_forks]
  obtain ⟨_, hl, hw⟩ := Automaton.mem_sum.mp hxy
  obtain ⟨f, hf, rfl⟩ := List.mem_map.mp hl
  have hbars : ¬ a.Bars s (x ++ y) := by
    rintro ⟨d, hd, he⟩
    obtain ⟨b, hb, rfl, htarget⟩ := Automaton.mem_edgesOf_iff.mp he
    rcases (harcs b).mp hb with ⟨g, -, rfl⟩ | ⟨d, hd', rfl⟩
    · exact Automaton.lambda_notMem_of_finds hw (List.mem_of_mem_head? hd)
    · obtain ⟨hnull, -, hd'⟩ := mem_rejected.mp hd'
      cases x with
      | nil => exact Bool.false_ne_true (hnull.symm.trans (hfirst.nullable_of_nil hx))
      | cons d' x =>
        cases hd
        exact hd' (hfirst.mem_of_cons hx)
  exact Automaton.finds_of_arc hreject ((harcs _).mpr (.inl ⟨f, hf, rfl⟩)) hbars
    (by rwa [findingsAlong_silent])

mutual

/-- What is laid out from `s` to `t` finds, from `s`, all that it matches followed by what is found
from `t`. -/
theorem le_findings_of_laid (hreject : a.view Automaton.reject = {})
    (hT : ∀ {follow s t n n'}, target follow s t n n' → P * a.findings t ≤ a.findings s) :
    ∀ (e : Element) {m : Option Emission} {follow : FirstSet} {s t : StateId} {n n' : Nat},
      e.Every (FirstSet.Suits c.first P) → m = none ∨ P = 1 → Laid c a target m follow e s t n n' →
      e.language c.inventory P * a.findings t ≤ a.findings s
  | .utterance text, m, follow, s, t, n, n', _, _, h => by
    rw [Laid] at h
    exact le_findings_of_laidText hreject h
  | .set ref, m, follow, s, t, n, n', _, _, h => by
    rw [Laid] at h
    exact le_findings_of_laidSet hreject h
  | .compound refs, m, follow, s, t, n, n', _, _, h => by
    rw [Laid] at h
    exact le_findings_of_laidSet hreject h
  | .optional body, m, follow, s, t, n, n', hs, hm, h => by
    rw [Laid] at h
    obtain ⟨inner, last, ms, hview, hms, hbody, hlast⟩ := h
    have hinner : Element.languageAll c.inventory P body * a.findings t ≤ a.findings inner :=
      (mul_le_mul_right (silent_le_findings hreject hlast) _).trans
        (le_findings_of_laidAll hreject hT body hs.2 (nil_of_emissions hms hm) hbody)
    have harcs : a.arcs s = [silent inner, silent t] := congrArg View.arcs hview
    have hopen : a.Open s := by
      intro b hb hsymbol
      simp only [harcs, List.mem_cons, List.not_mem_nil, or_false] at hb
      exact hb.elim (fun h => absurd (by rw [h]) hsymbol) fun h => absurd (by rw [h]) hsymbol
    have hle := hopen.arcs_le_findings hreject harcs
    simp only [List.map_cons, List.map_nil, List.sum_cons, List.sum_nil, add_zero,
      findingsAlong_silent] at hle
    rw [Element.language, add_mul, one_mul]
    exact (add_le_add_left hinner _).trans hle
  | .disjunction branches, m, follow, s, t, n, n', hs, hm, h => by
    rw [Laid] at h
    obtain ⟨forks, first, hbranches, hfirst, hview⟩ := h
    have hle := le_findings_of_laidBranches hreject hT branches hs.2 hm hbranches
    intro w hw
    have hsum := hle hw
    obtain ⟨x, hx, y, -, rfl⟩ := Language.mem_mul.mp hw
    exact mem_findings_of_forks hreject (FirstSet.covers_branches hs.2 hfirst) hx hsum hview
  | .boundary edge, m, follow, s, t, n, n', _, _, h => by
    rw [Laid] at h
    rw [Element.language, ← letter_edge]
    exact arc_le_findings hreject (congrArg View.arcs h.2)
  | .placeholder, m, follow, s, t, n, n', _, hm, h => by
    rw [Laid] at h
    rw [Element.language]
    rcases hm with rfl | rfl
    · exact hT h
    · split at h
      · rw [h.1, one_mul]
      · exact hT h

theorem le_findings_of_laidAll (hreject : a.view Automaton.reject = {})
    (hT : ∀ {follow s t n n'}, target follow s t n n' → P * a.findings t ≤ a.findings s) :
    ∀ (es : List Element) {ms : List Emission} {follow : FirstSet} {s t : StateId} {n n' : Nat},
      Element.EveryOf (FirstSet.Suits c.first P) es → ms = [] ∨ P = 1 →
      LaidAll c a target ms follow es s t n n' →
      Element.languageAll c.inventory P es * a.findings t ≤ a.findings s
  | [], ms, follow, s, t, n, n', _, _, h => by
    rw [LaidAll] at h
    rw [h.1, Element.languageAll, one_mul]
  | e :: es, ms, follow, s, t, n, n', hs, hms, h => by
    rw [LaidAll] at h
    obtain ⟨after, mid, k, -, he, hes⟩ := h
    have hhead : ms.head? = none ∨ P = 1 := hms.imp_left fun h => by rw [h]; rfl
    have htail : ms.tail = [] ∨ P = 1 := hms.imp_left fun h => by rw [h]; rfl
    rw [Element.languageAll, mul_assoc]
    exact (mul_le_mul_right (le_findings_of_laidAll hreject hT es hs.2 htail hes) _).trans
      (le_findings_of_laid hreject hT e hs.1 hhead he)

theorem le_findings_of_laidBranches (hreject : a.view Automaton.reject = {})
    (hT : ∀ {follow s t n n'}, target follow s t n n' → P * a.findings t ≤ a.findings s) :
    ∀ (branches : List (List Element)) {m : Option Emission} {follow : FirstSet} {join : StateId}
      {forks : List StateId} {n n' : Nat}, Element.EveryAmong (FirstSet.Suits c.first P) branches →
      m = none ∨ P = 1 → LaidBranches c a target m follow join branches forks n n' →
      Element.languageAny c.inventory P branches * a.findings join ≤ (forks.map a.findings).sum
  | [], m, follow, join, forks, n, n', _, _, h => by
    rw [Element.languageAny, zero_mul]
    exact bot_le
  | [] :: branches, m, follow, join, forks, n, n', hs, hm, h => by
    rw [LaidBranches] at h
    obtain ⟨rest, rfl, hrest⟩ := h
    rw [List.map_cons, List.sum_cons, Element.languageAny, Element.languageAll, add_mul, one_mul]
    exact add_le_add_right (le_findings_of_laidBranches hreject hT branches hs.2 hm hrest) _
  | (e :: es) :: branches, m, follow, join, forks, n, n', hs, hm, h => by
    rw [LaidBranches] at h
    obtain ⟨fork, rest, last, ms, k, rfl, hms, hbody, hlast, hrest⟩ := h
    have hfork : Element.languageAll c.inventory P (e :: es) * a.findings join ≤ a.findings fork :=
      (mul_le_mul_right (silent_le_findings hreject hlast) _).trans
        (le_findings_of_laidAll hreject hT (e :: es) hs.1 (nil_of_emissions hms hm) hbody)
    rw [List.map_cons, List.sum_cons, Element.languageAny, add_mul]
    exact add_le_add hfork (le_findings_of_laidBranches hreject hT branches hs.2 hm hrest)

end

end Elements

end Layout

namespace Rule

open Element (EveryOf everyOf_iff)

variable {i : Inventory} {rule : Rule} {a : Automaton} {strip : Bool} {t : Table}
  {options : CompileOptions}

namespace WellFormed

theorem suits_target (hrule : rule.WellFormed) (first : Except RuleError FirstSet)
    (P : Language Symbol) : EveryOf (FirstSet.Suits first P) rule.target :=
  hrule.target.imp fun _ he => ⟨he.ne_nil, fun hplace => absurd hplace he.ne_placeholder⟩

theorem suits_environment (hrule : rule.WellFormed) (strip : Bool) :
    EveryOf (FirstSet.Suits (FirstSet.ofTarget i rule.target) (rule.targetLanguage i))
      (rule.environmentFor strip) := by
  have hcovers (f : FirstSet) (h : FirstSet.ofTarget i rule.target = .ok f) :
      f.Covers (rule.targetLanguage i) := FirstSet.covers_sequence (hrule.suits_target _ _) h
  refine EveryOf.imp (fun _ he => ⟨he, fun _ => hcovers⟩) (everyOf_iff.mpr fun e he => ?_)
  exact everyOf_iff.mp hrule.environment e (environmentFor_subset he)

/-- Every word of the language of a rule is found. -/
theorem language_le_findings (hrule : rule.WellFormed) (h : rule.automaton i strip = .ok a) :
    rule.language i strip ≤ a.findings Automaton.start := by
  obtain ⟨-, hreject, last, n, hlast, hlaid⟩ := Assembly.layout_of_automaton h
  have htarget {follow : FirstSet} {s t : StateId} {n n' : Nat}
      (h : Layout.LaidTarget i rule a follow s t n n') :
      rule.targetLanguage i * a.findings t ≤ a.findings s := by
    obtain ⟨ms, -, hlaid⟩ := h
    exact Layout.le_findings_of_laidAll hreject (fun h => by rw [h.1, one_mul]) rule.target
      (hrule.suits_target _ _) (.inr rfl) hlaid
  have hfinal : a.isFinal last = true := congrArg View.isFinal hlast
  intro w hw
  refine Layout.le_findings_of_laidAll hreject htarget _ (hrule.suits_environment strip) (.inl rfl)
    hlaid ?_
  rw [← List.append_nil w]
  exact Language.append_mem_mul hw (Automaton.nil_mem_findings hfinal)

end WellFormed

/-- The table of a rule leads to a final state over a span just if the search finds a path through
it. -/
theorem walk_isFinal_iff_acceptingPath (hrule : rule.Readable) (h : rule.table i options = .ok t)
    (span : List Symbol) :
    (∃ id, t.walk span = some id ∧ t.isFinal id = true) ↔
      (t.automaton.acceptingPath span).isSome = true := by
  obtain ⟨ha, -⟩ := table_eq_ok h
  rw [← Option.any_eq_true, ← Table.accepts, accepts_iff_mem_language h]
  constructor
  · intro hspan
    exact Automaton.acceptingPath_isSome_of_finds (hrule.wellFormed.language_le_findings ha hspan)
  · intro hpath
    obtain ⟨path, hpath⟩ := Option.isSome_iff_exists.mp hpath
    obtain ⟨s, hrun, hfinal⟩ := Automaton.run_of_acceptingPath hpath
    rw [← futures_start ha]
    exact ⟨s, ⟨path, hrun⟩, hfinal⟩

theorem rounding_acceptingPath : rounding.Readable ∧ ∃ t, rounding.table {} {} = .ok t ∧
    (t.automaton.acceptingPath [.wordStart, .char 'a']).isSome = true := by
  obtain ⟨t, ht⟩ : ∃ t, rounding.table {} {} = .ok t := exists_ok (by decide +kernel)
  have hwalk : (rounding.table {} {}).map (fun t =>
      (t.walk [.wordStart, .char 'a']).any t.isFinal) = .ok true := by decide +kernel
  rw [ht] at hwalk
  refine ⟨rounding_readable, t, ht, (walk_isFinal_iff_acceptingPath rounding_readable ht _).mp ?_⟩
  exact (Option.any_eq_true ..).mp (Except.ok.inj hwalk)

end Rule

end SoundChange
