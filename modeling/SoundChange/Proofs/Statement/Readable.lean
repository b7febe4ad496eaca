import SoundChange.Proofs.Rule.Grammatical
import SoundChange.Proofs.Rule.Language
import SoundChange.Proofs.Statement.File
import SoundChange.Proofs.Statement.Turn
import Mathlib

/-!
# What can be read is well formed

Every rule that is read from a file is well formed (`Rule.Readable.wellFormed`). Words have
characters because the lexer cuts none without one. `Draft.Sound` carries this through the draft of
a rule: each token keeps it (`Draft.Sound.step`), and a draft that is sound is completed to a rule
that is well formed.
-/

namespace SoundChange

open Element (Every EveryOf EveryAmong everyOf_iff everyAmong_iff)

/-- What an element has that stands in some part of a rule, in a group or not. -/
structure RulePart.Allows (part : RulePart) (e : Element) : Prop where
  ne_nil : e ≠ .utterance []
  plain : part ≠ .environment → e ≠ .placeholder ∧ e.isBoundary = false
  single : part = .result → (∃ text, e = .utterance text) ∨ e.isSet = true

/-- The rule stands in some rule file. -/
def Rule.Readable (rule : Rule) : Prop :=
  ∃ source entry position, entry ∈ Statement.readAll source ∧
    entry.result = .ok (.rule rule position)

/-! ## Words -/

/-- If the token is a word, it has a character. -/
def Token.Proper (t : Token) : Prop := t.kind = .word → t.text ≠ []

theorem Lexeme.text_ne_nil {c : Char} {cs : Text} (h : (Lexeme.read c cs).kind = some .word) :
    (Lexeme.read c cs).text ≠ [] := by
  unfold read at h ⊢
  split at h <;> rename_i hc
  · cases h
  · cases h
  · cases h
  · simp only [identifier] at h
    split at h <;> cases h
  · exact List.cons_ne_nil _ _
  · unfold punctuation at h
    split at h
    · cases h
    · unfold punctuationKind at h
      split at h <;> cases h
  · cases h

theorem Token.proper_of_mem_tokenizeFrom {depth : Nat} {p : Position} {source : Text} {t : Token}
    (h : t ∈ tokenizeFrom depth p source) : t.Proper := by
  induction depth, p, source using tokenizeFrom.induct with
  | case1 depth p =>
    rw [tokenizeFrom, List.mem_singleton] at h
    subst h
    intro hword
    cases hword
  | case2 depth p c cs lexeme hkind ih =>
    rw [tokenizeFrom, hkind] at h
    rw [hkind] at ih
    exact ih h
  | case3 depth p c cs lexeme kind hkind hskip ih =>
    rw [tokenizeFrom, hkind] at h
    dsimp only at h
    rw [if_pos hskip] at h
    rw [hkind] at ih
    exact ih h
  | case4 depth p c cs lexeme kind hkind hskip ih =>
    rw [tokenizeFrom, hkind] at h
    dsimp only at h
    rw [if_neg hskip] at h
    rw [hkind] at ih
    rcases List.mem_cons.mp h with rfl | h
    · intro hword
      exact Lexeme.text_ne_nil (hkind.trans (congrArg some hword))
    · exact ih h

/-! ## Drafts -/

section Drafts

variable {part : RulePart} {known : List Text} {t : Token} {ts : List Token} {d d' : Draft}
  {e : Element} {p q : Position}

theorem RulePart.allows_of_isSet (h : e.isSet = true) : e.Every part.Allows := by
  cases e with
  | set => exact ⟨nofun, fun _ => ⟨nofun, rfl⟩, fun _ => .inr rfl⟩
  | compound => exact ⟨nofun, fun _ => ⟨nofun, rfl⟩, fun _ => .inr rfl⟩
  | _ => cases h

theorem RulePart.allows_utterance {text : Text} (h : text ≠ []) :
    (Element.utterance text).Every part.Allows :=
  ⟨fun htext => h (Element.utterance.inj htext), fun _ => ⟨nofun, rfl⟩, fun _ => .inl ⟨_, rfl⟩⟩

theorem RulePart.allows_of_environment (hpart : part = .environment) (he : e ≠ .utterance []) :
    part.Allows e :=
  ⟨he, fun hne => absurd hpart hne, fun hresult => absurd (hpart.symm.trans hresult) nofun⟩

theorem RulePart.allows_of_single (ht : t.Proper) (h : part.single? known t = some e) :
    e.Every part.Allows := by
  unfold single? at h
  split at h
  · rename_i hword
    cases h
    rw [Element.ofWord_eq]
    split
    · exact allows_of_isSet rfl
    · exact allows_utterance (ht hword)
  · cases h
    exact allows_of_isSet rfl
  · split at h <;> cases h
    exact allows_of_environment (by assumption) nofun
  · split at h <;> cases h
    exact allows_of_environment (by assumption) nofun
  · cases h

theorem Element.settle_eq_utterance_nil_iff (first : Bool) (e : Element) :
    settle first e ≠ .utterance [] ↔ e ≠ .utterance [] := by
  cases e <;> simp [settle]

theorem Bracket.isSet_of_step {b : Bracket} (h : b.step t = .done e) : e.isSet = true := by
  unfold step at h
  split at h
  · split at h <;> cases h
  split at h <;> try cases h
  split at h
  · rename_i helement
    cases h
    unfold element at helement
    split at helement <;> cases helement <;> rfl
  · cases h

/-- A complete group is allowed where its branches are, though not in a result. -/
theorem Group.every_of_close {g : Group} (hpart : part ≠ .result)
    (hbranches : EveryAmong part.Allows g.branches) (hbranch : EveryOf part.Allows g.branch)
    (h : g.close = .ok e) : e.Every part.Allows := by
  unfold close at h
  split at h
  · split at h
    · cases h
    · cases h
      exact ⟨⟨nofun, fun _ => ⟨nofun, rfl⟩, fun h => absurd h hpart⟩, hbranch⟩
  · dsimp only at h
    split at h
    · cases h
    · cases h
      refine ⟨⟨nofun, fun _ => ⟨nofun, rfl⟩, fun h => absurd h hpart⟩, ?_⟩
      rw [everyAmong_iff, List.forall_mem_append, List.forall_mem_singleton]
      exact ⟨everyAmong_iff.mp hbranches, hbranch⟩

namespace Draft

/-- All that has been read of a rule is allowed where it stands. -/
structure Sound (d : Draft) : Prop where
  elements : ∀ x ∈ d.elements, x.1.Every d.part.Allows
  groups : ∀ g ∈ d.groups, EveryAmong d.part.Allows g.branches ∧ EveryOf d.part.Allows g.branch
  groups_eq_nil : d.part = .result → d.groups = []
  target : d.part ≠ .target → EveryOf (RulePart.Allows .target) d.target
  result : d.part = .environment → EveryOf (RulePart.Allows .result) d.result

theorem sound_empty : Sound {} where
  elements := nofun
  groups := nofun
  groups_eq_nil := nofun
  target h := absurd rfl h
  result := nofun

theorem Sound.everyOf (h : d.Sound) : EveryOf d.part.Allows (d.elements.map (·.1)) := by
  rw [everyOf_iff, List.forall_mem_map]
  exact h.elements

/-- There are no groups in a result. -/
theorem Sound.part_ne_result (h : d.Sound) {g : Group} {outer : List Group}
    (hgroups : d.groups = g :: outer) : d.part ≠ .result := by
  intro hpart
  rw [h.groups_eq_nil hpart] at hgroups
  cases hgroups

/-- A draft stays sound when its innermost groups are put in order. -/
theorem Sound.regroup (h : d.Sound) {g : Group} {outer groups : List Group}
    (hgroups : d.groups = g :: outer)
    (hnew : EveryAmong d.part.Allows g.branches → EveryOf d.part.Allows g.branch →
      (∀ g ∈ outer, EveryAmong d.part.Allows g.branches ∧ EveryOf d.part.Allows g.branch) →
      ∀ g ∈ groups, EveryAmong d.part.Allows g.branches ∧ EveryOf d.part.Allows g.branch) :
    Sound { d with groups } := by
  have hg := h.groups
  rw [hgroups, List.forall_mem_cons] at hg
  exact { h with
    groups := hnew hg.1.1 hg.1.2 hg.2
    groups_eq_nil := fun hpart => absurd hpart (h.part_ne_result hgroups) }

theorem Sound.push (hd : d.Sound) (he : e.Every d.part.Allows) (h : d.push e p = .ok d') :
    d'.Sound := by
  unfold Draft.push at h
  split at h
  · cases h
    refine { hd with elements := fun x hx => ?_ }
    rcases List.mem_append.mp hx with hx | hx
    · exact hd.elements x hx
    · rw [List.mem_singleton.mp hx]
      exact he
  · rename_i g outer hgroups
    split at h
    · cases h
    cases h
    refine hd.regroup hgroups fun hbranches hbranch houter => ?_
    refine List.forall_mem_cons.mpr ⟨⟨hbranches, ?_⟩, houter⟩
    rw [everyOf_iff, List.forall_mem_append, List.forall_mem_singleton]
    exact ⟨everyOf_iff.mp hbranch, he⟩

/-- The end of a part that is no environment. -/
theorem Sound.separate (hd : d.Sound) (hgroups : d.groups = [])
    (hpart : d.part ≠ .environment) (start : Position) : (d.separate start).Sound := by
  have hall := hd.everyOf
  unfold Draft.separate
  cases h : d.part with
  | target =>
    rw [h] at hall
    exact ⟨nofun, nofun, fun _ => rfl, fun _ => hall, nofun⟩
  | result =>
    rw [h] at hall
    refine ⟨nofun, fun g hg => ?_, nofun, fun _ => hd.target (by rw [h]; nofun), fun _ => hall⟩
    rw [show d.groups = [] from hgroups] at hg
    cases hg
  | environment => exact absurd h hpart

/-- A further branch of the innermost group. -/
theorem Sound.split (hd : d.Sound) {g : Group} {outer : List Group}
    (hgroups : d.groups = g :: outer) : Sound { d with
      groups := { g with branches := g.branches ++ [g.branch], branch := [] } :: outer } := by
  refine hd.regroup hgroups fun hbranches hbranch houter => ?_
  refine List.forall_mem_cons.mpr ⟨⟨?_, trivial⟩, houter⟩
  rw [everyAmong_iff, List.forall_mem_append, List.forall_mem_singleton]
  exact ⟨everyAmong_iff.mp hbranches, hbranch⟩

/-- The end of the innermost group. -/
theorem Sound.close (hd : d.Sound) {g : Group} {outer : List Group}
    (hgroups : d.groups = g :: outer) (hclose : g.close = .ok e)
    (h : Draft.push { d with groups := outer } e p = .ok d') : d'.Sound := by
  have hg := hd.groups
  rw [hgroups, List.forall_mem_cons] at hg
  have he : e.Every d.part.Allows :=
    Group.every_of_close (hd.part_ne_result hgroups) hg.1.1 hg.1.2 hclose
  have hclosed : Sound { d with groups := outer } := hd.regroup hgroups fun _ _ houter => houter
  exact hclosed.push he h

theorem Sound.begun (hd : d.Sound) (p : Position) : (d.begun p).Sound := { hd with }

/-- A token keeps a draft sound. -/
theorem Sound.step (hd : d.Sound) (ht : t.Proper) (h : d.step known t = .more d') : d'.Sound := by
  have hbegun := hd.begun t.position
  generalize hr : Progress.more d' = r at h
  cases turn_iff.mpr h with
  | refMore hb hstep =>
    cases hr
    exact { hbegun with }
  | refDone hb hstep =>
    refine Sound.push ?_ (RulePart.allows_of_isSet (Bracket.isSet_of_step hstep))
      (proceed_eq_more.mp hr.symm)
    exact { hbegun with }
  | branch hb hg hk =>
    cases hr
    exact hbegun.split hg
  | close hb hg hk hclose => exact hbegun.close hg hclose (proceed_eq_more.mp hr.symm)
  | separate hb hg hpart hk =>
    cases hr
    exact hbegun.separate hg hpart _
  | single hb hsingle =>
    exact hbegun.push (RulePart.allows_of_single ht hsingle) (proceed_eq_more.mp hr.symm)
  | openBracket hb hk =>
    cases hr
    exact { hbegun with }
  | openGroup hb hk hpart =>
    cases hr
    exact { hbegun with
      groups := List.forall_mem_cons.mpr ⟨⟨trivial, trivial⟩, hd.groups⟩
      groups_eq_nil := fun h => absurd h hpart }
  | refFailed | closeFailed | finish | unexpected => cases hr

/-- What is checked of a draft before it becomes a rule, and the rule. -/
theorem complete_eq_ok {rule : Rule} (h : d.complete p = .ok (rule, q)) :
    (∀ e ∈ d.result, (∀ refs, e ≠ .compound refs) ∧ ∀ name, e ≠ .set (.category name)) ∧
      d.target ≠ [] ∧ (d.elements.map (·.1)).countP Element.isPlaceholder = 1 ∧
      d.elements.tail.dropLast.find? (·.1.isBoundary) = none ∧
      rule = ⟨d.target, d.result, Element.settleAll true (d.elements.map (·.1))⟩ := by
  unfold Draft.complete at h
  dsimp only at h
  split at h
  · cases h
  rename_i hcompound
  split at h
  · cases h
  rename_i hcategory
  split at h
  · cases h
  rename_i htarget
  split at h
  · cases h
  rename_i hcount
  split at h
  · cases h
  rename_i hboundary
  cases h
  refine ⟨fun e he => ⟨?_, ?_⟩, htarget, Decidable.not_not.mp hcount, hboundary, rfl⟩
  · rintro refs rfl
    exact hcompound (List.any_eq_true.mpr ⟨_, he, rfl⟩)
  · rintro name rfl
    exact hcategory (List.any_eq_true.mpr ⟨_, he, rfl⟩)

/-- A draft that passes the checks becomes a rule. -/
theorem complete_of_checks
    (hresult : ∀ e ∈ d.result, (∀ refs, e ≠ .compound refs) ∧ ∀ name, e ≠ .set (.category name))
    (htarget : d.target ≠ []) (hcount : (d.elements.map (·.1)).countP Element.isPlaceholder = 1)
    (hboundary : d.elements.tail.dropLast.find? (·.1.isBoundary) = none) (p : Position) :
    d.complete p =
      .ok (⟨d.target, d.result, Element.settleAll true (d.elements.map (·.1))⟩, d.targetStart) := by
  have hno {f : Element → Bool} (hf : ∀ e ∈ d.result, f e = false) : ¬ d.result.any f = true := by
    rw [Bool.not_eq_true, List.any_eq_false]
    exact fun e he => ne_true_of_eq_false (hf e he)
  unfold Draft.complete
  dsimp only
  rw [if_neg (hno fun e he => ?_), if_neg (hno fun e he => ?_), if_neg htarget,
    if_neg (Decidable.not_not.mpr hcount), hboundary]
  · cases e with
    | set ref =>
      cases ref with
      | category name => exact absurd rfl ((hresult _ he).2 name)
      | feature => rfl
    | _ => rfl
  · cases e with
    | compound refs => exact absurd rfl ((hresult _ he).1 refs)
    | _ => rfl

/-- A sound draft becomes a well-formed rule. -/
theorem Sound.complete (hd : d.Sound) (hpart : d.part = .environment) {rule : Rule}
    (h : d.complete p = .ok (rule, q)) : rule.WellFormed := by
  obtain ⟨hresult, -, -, -, rfl⟩ := complete_eq_ok h
  refine ⟨?_, fun e he => ?_, ?_⟩
  · refine (hd.target (by rw [hpart]; nofun)).imp fun e he => ?_
    exact ⟨he.ne_nil, (he.plain nofun).1, (he.plain nofun).2⟩
  · have hall := everyOf_iff.mp (hd.result hpart) e he
    rcases hall.self.single rfl with htext | hset
    · exact .inl htext
    · cases e with
      | set ref =>
        cases ref with
        | category name => exact absurd rfl ((hresult _ he).2 name)
        | feature present name => exact .inr ⟨present, name, rfl⟩
      | compound refs => exact absurd rfl ((hresult _ he).1 refs)
      | _ => cases hset
  · exact (Element.everyOf_settleAll_iff Element.settle_eq_utterance_nil_iff true _).mpr
      (hd.everyOf.imp fun e he => he.ne_nil)

/-- The rule is what a sound draft is completed to. -/
def Completes (rule : Rule) : Prop :=
  ∃ (d : Draft) (p q : Position), d.Sound ∧ d.part = .environment ∧ d.complete p = .ok (rule, q)

theorem Completes.wellFormed {rule : Rule} (h : Completes rule) : rule.WellFormed := by
  obtain ⟨d, p, q, hd, hpart, hcomplete⟩ := h
  exact hd.complete hpart hcomplete

theorem Completes.target_ne_nil {rule : Rule} (h : Completes rule) : rule.target ≠ [] := by
  obtain ⟨d, p, q, -, -, hcomplete⟩ := h
  obtain ⟨-, htarget, -, -, rfl⟩ := complete_eq_ok hcomplete
  exact htarget

theorem Completes.placeholder_mem {rule : Rule} (h : Completes rule) :
    .placeholder ∈ rule.environment := by
  obtain ⟨d, p, q, -, -, hcomplete⟩ := h
  obtain ⟨-, -, hcount, -, rfl⟩ := complete_eq_ok hcomplete
  rw [← Element.countP_settleAll (fun first e => by cases e <;> rfl) true] at hcount
  obtain ⟨e, he, hplace⟩ := List.countP_pos_iff.mp (Nat.lt_of_lt_of_eq Nat.one_pos hcount.symm)
  rwa [Element.isPlaceholder_eq_true.mp hplace] at he

/-- What is read to the end of its line is a sound draft that is complete. -/
theorem Sound.read (hd : d.Sound) (hts : ∀ t ∈ ts, t.Proper) {rule : Rule}
    (h : (d.read known ts).result = .ok (rule, q)) : Completes rule := by
  obtain ⟨d', p, hd', hpart, hcomplete⟩ := exists_complete_of_read (P := Sound)
    (fun _ _ t ht hd hstep => hd.step (hts t ht) hstep) hd h
  exact ⟨d', p, q, hd', hpart, hcomplete⟩

end Draft

end Drafts

/-! ## Files -/

theorem Statement.read_eq_rule {known : List Text} {ts : List Token} {rule : Rule}
    {position : Position} (h : (read known ts).result = .ok (.rule rule position)) :
    (Draft.read known {} ts).result = .ok (rule, position) := by
  unfold read at h
  split at h
  · obtain ⟨c, -, hc⟩ := map_eq_ok.mp h
    cases hc
  · obtain ⟨f, -, hf⟩ := map_eq_ok.mp h
    cases hf
  · obtain ⟨placed, hplaced, hrule⟩ := map_eq_ok.mp h
    cases hrule
    exact hplaced

theorem Statement.completes_of_read {known : List Text} {ts : List Token} {rule : Rule}
    {position : Position} (hts : ∀ t ∈ ts, t.Proper)
    (h : (read known ts).result = .ok (.rule rule position)) : Draft.Completes rule :=
  Draft.sound_empty.read hts (read_eq_rule h)

theorem Statement.completes_of_mem_readFrom {known : List Text} {ts : List Token} {entry : Entry}
    {rule : Rule} {position : Position} (hts : ∀ t ∈ ts, t.Proper)
    (hentry : entry ∈ readFrom known ts) (h : entry.result = .ok (.rule rule position)) :
    Draft.Completes rule := by
  obtain ⟨earlier, later, hsplit⟩ := List.append_of_mem hentry
  obtain ⟨rest, hrest, hread⟩ := exists_read_of_readFrom hsplit
  exact completes_of_read (fun t ht => hts t (hrest.subset ht)) (hread.symm.trans h)

theorem Rule.Readable.completes {rule : Rule} (h : rule.Readable) : Draft.Completes rule := by
  obtain ⟨source, entry, position, hentry, hresult⟩ := h
  exact Statement.completes_of_mem_readFrom
    (fun t ht => Token.proper_of_mem_tokenizeFrom ht) hentry hresult

/-- A rule that stands in a rule file is well formed. -/
theorem Rule.Readable.wellFormed {rule : Rule} (h : rule.Readable) : rule.WellFormed :=
  h.completes.wellFormed

/-- The placeholder is no optional element, so it is not stripped. -/
theorem Rule.Readable.placeholder_mem_environmentFor {rule : Rule} (hrule : rule.Readable)
    (strip : Bool) : .placeholder ∈ rule.environmentFor strip := by
  have hplace := hrule.completes.placeholder_mem
  obtain ⟨os, hos, hoptional⟩ := rule.environmentFor_append strip
  rw [hos, List.mem_append] at hplace
  refine hplace.resolve_right fun hmem => ?_
  cases hoptional _ hmem

theorem Rule.rounding_readable : rounding.Readable := by
  have hread : Statement.readAll "a/o/(k|#)_(l)".toList = [⟨1, .ok (.rule rounding .start)⟩] := by
    cbv
  exact ⟨_, _, _, hread ▸ List.mem_singleton_self _, rfl⟩

end SoundChange
