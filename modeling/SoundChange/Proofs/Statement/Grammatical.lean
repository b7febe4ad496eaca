import SoundChange.Proofs.Rule.Grammatical
import SoundChange.Proofs.Statement.File
import SoundChange.Proofs.Statement.Readable
import SoundChange.Proofs.Statement.Turn

/-!
# What is read is grammatical

Every rule of a file is grammatical for the categories that the statements before it make known
(`Statement.grammatical_of_readAll`). `Draft.Grammatical` carries this through the draft of a rule:
the elements of open groups may stand in a group, and a group that has seen no boundary has none.
-/

namespace SoundChange

open Element (Every EveryOf EveryAmong everyOf_iff everyAmong_iff BoundariesAtEnds)

variable {known : List Text} {d d' : Draft} {t : Token} {ts : List Token} {e : Element}
  {g : Group} {p q : Position} {rule : Rule}

namespace Element

/-- What may stand in a group. -/
structure InGroup (known : List Text) (e : Element) : Prop where
  grammatical : e.Grammatical known
  ne_placeholder : e ≠ .placeholder

/-- What may stand in a part of a rule: the placeholder, or all that may stand in a group. -/
def InPart (known : List Text) (e : Element) : Prop := e = .placeholder ∨ e.Every (InGroup known)

theorem InPart.grammatical (h : e.InPart known) : e.Every (Grammatical known) := by
  rcases h with rfl | h
  · trivial
  · exact h.imp fun _ he => he.grammatical

end Element

open Element (InGroup InPart)

/-! ## Sets, single tokens and groups -/

theorem Bracket.inGroup_of_step {b : Bracket} (h : b.step t = .done e) :
    e.Every (InGroup known) := by
  unfold step at h
  split at h
  · split at h <;> cases h
  split at h <;> try cases h
  split at h
  · rename_i helement
    cases h
    unfold element at helement
    split at helement
    · cases helement
    · cases helement
      exact ⟨trivial, nofun⟩
    · rename_i hnil hone
      cases helement
      refine ⟨?_, nofun⟩
      match b.refs, hnil, hone with
      | [], hnil, _ => exact absurd rfl hnil
      | [ref], _, hone => exact absurd rfl (hone ref)
      | _ :: _ :: _, _, _ => exact Nat.le_add_left 2 _
  · cases h

theorem RulePart.inPart_of_single {part : RulePart} (h : part.single? known t = some e) :
    e.InPart known := by
  unfold single? at h
  split at h
  · cases h
    rw [Element.ofWord_eq]
    split
    · exact .inr ⟨trivial, nofun⟩
    · exact .inr ⟨by assumption, nofun⟩
  · cases h
    exact .inr ⟨trivial, nofun⟩
  · split at h <;> cases h
    exact .inl rfl
  · split at h <;> cases h
    exact .inr ⟨trivial, nofun⟩
  · cases h

/-- All that has been read of a group may stand in one. -/
structure Group.Grammatical (known : List Text) (g : Group) : Prop where
  branches : EveryAmong (InGroup known) g.branches
  branch : EveryOf (InGroup known) g.branch
  boundary : g.boundary = none → ∀ e ∈ g.branch, e.isBoundary = false

theorem Group.Grammatical.push (hg : g.Grammatical known) (he : e.Every (InGroup known)) :
    Group.Grammatical known { g with
      branch := g.branch ++ [e]
      boundary := if e.isBoundary then g.boundary.or (some p) else g.boundary } where
  branches := hg.branches
  branch := by
    rw [everyOf_iff, List.forall_mem_append, List.forall_mem_singleton]
    exact ⟨everyOf_iff.mp hg.branch, he⟩
  boundary h := by
    rw [List.forall_mem_append, List.forall_mem_singleton]
    cases hboundary : e.isBoundary with
    | true => cases hg : g.boundary <;> simp [hboundary, hg] at h
    | false => exact ⟨hg.boundary (by simpa [hboundary] using h), rfl⟩

theorem Group.Grammatical.split (hg : g.Grammatical known) :
    Group.Grammatical known { g with branches := g.branches ++ [g.branch], branch := [] } where
  branches := by
    rw [everyAmong_iff, List.forall_mem_append, List.forall_mem_singleton]
    exact ⟨everyAmong_iff.mp hg.branches, hg.branch⟩
  branch := trivial
  boundary _ := nofun

/-- A complete group may stand in another one. -/
theorem Group.Grammatical.close (hg : g.Grammatical known) (h : g.close = .ok e) :
    e.Every (InGroup known) := by
  unfold Group.close at h
  split at h
  · split at h
    · cases h
    · rename_i hnone
      cases h
      exact ⟨⟨hg.boundary hnone, nofun⟩, hg.branch⟩
  · rename_i hne
    dsimp only at h
    split at h
    · cases h
    · rename_i hinner
      cases h
      have hlength := List.length_pos_iff.mpr hne
      refine ⟨⟨⟨by simp; omega, fun branch hbranch => ?_⟩, nofun⟩, ?_⟩
      · rw [Bool.not_eq_true, List.any_eq_false] at hinner
        exact Element.hasInnerBoundary_eq_false.mp (Bool.not_eq_true _ ▸ hinner branch hbranch)
      · rw [everyAmong_iff, List.forall_mem_append, List.forall_mem_singleton]
        exact ⟨everyAmong_iff.mp hg.branches, hg.branch⟩

namespace Draft

/-! ## Drafts -/

/-- All that has been read of a rule may stand where it stands. -/
structure Grammatical (known : List Text) (d : Draft) : Prop where
  elements : ∀ x ∈ d.elements, x.1.InPart known
  groups : ∀ g ∈ d.groups, g.Grammatical known
  target : ∀ e ∈ d.target, e.InPart known
  result : ∀ e ∈ d.result, e.InPart known

theorem grammatical_empty : Grammatical known {} := ⟨nofun, nofun, nofun, nofun⟩

theorem Grammatical.begun (hd : d.Grammatical known) (p : Position) :
    (d.begun p).Grammatical known := { hd with }

theorem Grammatical.regroup (hd : d.Grammatical known) {groups : List Group}
    (hgroups : ∀ g ∈ groups, g.Grammatical known) :
    Grammatical known { d with groups } := { hd with groups := hgroups }

theorem Grammatical.push (hd : d.Grammatical known) (he : e.InPart known)
    (h : d.push e p = .ok d') : d'.Grammatical known := by
  unfold Draft.push at h
  split at h
  · cases h
    refine { hd with elements := ?_ }
    rw [List.forall_mem_append, List.forall_mem_singleton]
    exact ⟨hd.elements, he⟩
  · rename_i g outer hgroups
    have hall := hd.groups
    rw [hgroups, List.forall_mem_cons] at hall
    split at h
    · cases h
    · rename_i hplaceholder
      cases h
      have hgroup : e.Every (InGroup known) := he.resolve_left fun heq =>
        hplaceholder (Element.isPlaceholder_eq_true.mpr heq)
      exact hd.regroup (List.forall_mem_cons.mpr ⟨hall.1.push hgroup, hall.2⟩)

theorem Grammatical.separate (hd : d.Grammatical known) (start : Position) :
    (d.separate start).Grammatical known := by
  have hall : ∀ e ∈ d.elements.map (·.1), e.InPart known := List.forall_mem_map.mpr hd.elements
  unfold Draft.separate
  split
  · exact ⟨nofun, nofun, hall, nofun⟩
  · exact ⟨nofun, hd.groups, hd.target, hall⟩

/-- A token keeps a draft grammatical. -/
theorem Grammatical.step (hd : d.Grammatical known) (h : d.step known t = .more d') :
    d'.Grammatical known := by
  have hbegun := hd.begun t.position
  have houter {g : Group} {outer : List Group} (hg : d.groups = g :: outer) :
      g.Grammatical known ∧ ∀ g ∈ outer, g.Grammatical known := by
    rw [← List.forall_mem_cons, ← hg]
    exact hd.groups
  generalize hr : Progress.more d' = r at h
  cases turn_iff.mpr h with
  | refMore hb hstep =>
    cases hr
    exact { hbegun with }
  | refDone hb hstep =>
    refine Grammatical.push ?_ (.inr (Bracket.inGroup_of_step hstep)) (proceed_eq_more.mp hr.symm)
    exact { hbegun with }
  | branch hb hg hk =>
    cases hr
    exact hbegun.regroup (List.forall_mem_cons.mpr ⟨(houter hg).1.split, (houter hg).2⟩)
  | close hb hg hk hclose =>
    exact (hbegun.regroup (houter hg).2).push (.inr ((houter hg).1.close hclose))
      (proceed_eq_more.mp hr.symm)
  | separate hb hg hpart hk =>
    cases hr
    exact hbegun.separate _
  | single hb hsingle =>
    exact hbegun.push (RulePart.inPart_of_single hsingle) (proceed_eq_more.mp hr.symm)
  | openBracket hb hk =>
    cases hr
    exact { hbegun with }
  | openGroup hb hk hpart =>
    cases hr
    exact hbegun.regroup (List.forall_mem_cons.mpr ⟨⟨trivial, trivial, nofun⟩, hd.groups⟩)
  | refFailed => cases hr
  | closeFailed => cases hr
  | finish => cases hr
  | unexpected => cases hr

theorem find?_boundary_eq_none {elements : List (Element × Position)} :
    elements.tail.dropLast.find? (·.1.isBoundary) = none ↔
      BoundariesAtEnds (elements.map (·.1)) := by
  rw [← Element.hasInnerBoundary_eq_false, Element.hasInnerBoundary, ← List.map_tail,
    ← List.map_dropLast, List.any_map, List.any_eq_false, List.find?_eq_none]
  rfl

/-- What is checked at the end of the line makes the rule grammatical. -/
theorem Grammatical.complete (hd : d.Grammatical known) (hrule : rule.WellFormed)
    (h : d.complete p = .ok (rule, q)) : rule.Grammatical known := by
  obtain ⟨-, htarget, hcount, hboundary, rfl⟩ := complete_eq_ok h
  have hall : ∀ e ∈ d.elements.map (·.1), e.InPart known := List.forall_mem_map.mpr hd.elements
  refine ⟨htarget, ?_, fun e he => ⟨hrule.result e he, (hd.result e he).grammatical.self⟩,
    ?_, ?_, ?_, ?_⟩
  · refine everyOf_iff.mpr fun e he => ?_
    have htarget := everyOf_iff.mp hrule.target e he
    exact ((hd.target e he).grammatical.and htarget).imp fun e he =>
      ⟨he.1, he.2.not_boundary, he.2.ne_placeholder⟩
  · exact (Element.everyOf_settleAll_iff Element.grammatical_settle_iff true _).mpr
      (everyOf_iff.mpr fun e he => (hall e he).grammatical)
  · have hplace (first : Bool) (e : Element) : e.settle first ≠ .placeholder ↔ e ≠ .placeholder :=
      not_congr (Element.settle_eq_placeholder_iff first e)
    refine Element.exists_placeholder ?_ ?_
    · rw [Element.countP_settleAll fun first e => by cases e <;> rfl, hcount]
    · refine (Element.forall_mem_settleAll fun first e => or_congr ?_ ?_).mpr fun e he =>
        (hall e he).imp_right fun h => h.imp fun e he => he.ne_placeholder
      · exact Element.settle_eq_placeholder_iff first e
      · exact Element.every_settle_iff hplace first e
  · exact Element.BoundariesAtEnds.settleAll_iff.mpr (find?_boundary_eq_none.mp hboundary)
  · intro leading edge hedge
    simpa using Element.settled_settleAll true _ leading edge hedge

/-- No text of a rule that can be completed is empty. -/
theorem Completes.everyOf_ne_nil (h : Completes rule) :
    EveryOf (· ≠ .utterance []) (rule.target ++ rule.result ++ rule.environment) := by
  have henvironment := h.wellFormed.environment
  obtain ⟨d, p, q, hd, hpart, hcomplete⟩ := h
  obtain ⟨-, -, -, -, rfl⟩ := complete_eq_ok hcomplete
  have htarget := (hd.target (by rw [hpart]; nofun)).imp fun _ he => he.ne_nil
  have hresult := (hd.result hpart).imp fun _ he => he.ne_nil
  rw [everyOf_iff] at htarget hresult henvironment ⊢
  simp only [List.forall_mem_append]
  exact ⟨⟨htarget, hresult⟩, henvironment⟩

end Draft

namespace Statement

/-! ## Files -/

variable {source : Text} {earlier later : List Entry} {line : Nat} {position : Position}

theorem grammatical_of_read (hts : ∀ t ∈ ts, t.Proper)
    (h : (read known ts).result = .ok (.rule rule position)) : rule.Grammatical known := by
  have hrule := (completes_of_read hts h).wellFormed
  obtain ⟨d, p, hd, -, hcomplete⟩ := Draft.exists_complete_of_read (P := Draft.Grammatical known)
    (fun _ _ _ _ hd hstep => hd.step hstep) Draft.grammatical_empty (read_eq_rule h)
  exact hd.complete hrule hcomplete

/-- A rule that stands in a rule file is grammatical for some known categories. -/
theorem exists_grammatical_of_readable (h : rule.Readable) : ∃ known, rule.Grammatical known := by
  obtain ⟨source, entry, position, hentry, hresult⟩ := h
  obtain ⟨earlier, later, hsplit⟩ := List.append_of_mem hentry
  obtain ⟨ts, hts, hread⟩ := exists_read_of_readFrom hsplit
  exact ⟨_, grammatical_of_read (fun t ht => Token.proper_of_mem_tokenizeFrom (hts.subset ht))
    (hread.symm.trans hresult)⟩

/-- A rule of a file is grammatical for the categories that the statements before it declare, and
none of its texts is empty. -/
theorem grammatical_of_readAll
    (h : readAll source = earlier ++ ⟨line, .ok (.rule rule position)⟩ :: later) :
    rule.Grammatical (knownAfter [] earlier) ∧
      EveryOf (· ≠ .utterance []) (rule.target ++ rule.result ++ rule.environment) := by
  obtain ⟨ts, hts, hread⟩ := exists_read_of_readFrom h
  have hproper : ∀ t ∈ ts, t.Proper := fun t ht =>
    Token.proper_of_mem_tokenizeFrom (hts.subset ht)
  exact ⟨grammatical_of_read hproper hread.symm,
    (completes_of_read hproper hread.symm).everyOf_ne_nil⟩

/-- A rule that has nearly everything: `(V|b)c/[+x]e/((#|[-y z])d|)V_(ie)#`, where `V` is a
category. -/
def crowdedRule : Rule where
  target := [.disjunction [[.set (.category ['V'])], [.utterance ['b']]], .utterance ['c']]
  result := [.set (.feature true ['x']), .utterance ['e']]
  environment := [
    .disjunction [
      [.disjunction [[.boundary .start], [.compound [.feature false ['y'], .category ['z']]]],
        .utterance ['d']],
      []],
    .set (.category ['V']), .placeholder, .optional [.utterance ['i', 'e']], .boundary .finish]

/-- The category before it. -/
def crowdedEarlier : List Entry := [⟨1, .ok (.category ((Category.new ['V']).addMember ['a']))⟩]

theorem crowdedRule_grammatical :
    readAll "V \x7b a \x7d\n(V|b)c => [+x]e / ((#|[-y z])d|)V_(ie)#\n".toList =
        crowdedEarlier ++ ⟨2, .ok (.rule crowdedRule ⟨2, 1⟩)⟩ :: [] ∧
      crowdedRule.Grammatical (knownAfter [] crowdedEarlier) ∧
      EveryOf (· ≠ .utterance [])
        (crowdedRule.target ++ crowdedRule.result ++ crowdedRule.environment) := by
  have hread : readAll "V \x7b a \x7d\n(V|b)c => [+x]e / ((#|[-y z])d|)V_(ie)#\n".toList =
      crowdedEarlier ++ ⟨2, .ok (.rule crowdedRule ⟨2, 1⟩)⟩ :: [] := by cbv
  exact ⟨hread, grammatical_of_readAll hread⟩

end Statement

end SoundChange
