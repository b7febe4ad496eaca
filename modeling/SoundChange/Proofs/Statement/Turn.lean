import SoundChange.Proofs.Statement.Line

/-!
# What a token does to a draft

`Draft.Turn known d t` lists what the token `t` can make of the draft `d`: a set reference goes on
or ends, a group is opened, parted or closed, a part or the rule ends, an element is added, or the
token is out of place. `Draft.turn_iff` says that the list is complete and that its entries exclude
each other, so an invariant of drafts is shown entry by entry, and a step is computed by naming its
entry. What every token keeps holds of the draft that a rule is completed from
(`Draft.exists_complete_of_read`).
-/

namespace SoundChange

variable {known : List Text} {d d' : Draft} {t : Token} {e : Element} {p q : Position}

/-- What a bare word stands for where some categories are known. -/
def Element.ofWord (known : List Text) (text : Text) : Element :=
  if known.contains text then .set (.category text) else .utterance text

theorem Element.ofWord_eq (known : List Text) (text : Text) : ofWord known text =
    if text ∈ known then .set (.category text) else .utterance text := by
  simp only [ofWord, List.contains_iff_mem]

/-- The element that a token outside brackets makes on its own. -/
def RulePart.single? (known : List Text) (part : RulePart) (t : Token) : Option Element :=
  match t.kind with
  | .word => some (.ofWord known t.text)
  | .identifier => some (.set (.category t.text))
  | .placeholder => if part = .environment then some .placeholder else none
  | .boundary => if part = .environment then some (.boundary .finish) else none
  | _ => none

namespace Draft

/-- Where the present part begins if its next token stands at `p`. -/
def startAt (d : Draft) (p : Position) : Position := d.start.getD p

/-- The draft with a next token at `p`, which may be the first of its part. -/
def begun (d : Draft) (p : Position) : Draft := { d with start := some (d.startAt p) }

/-- What a token makes of a draft. -/
inductive Turn (known : List Text) (d : Draft) (t : Token) :
    Progress Draft (Except RuleError (Rule × Position)) → Prop where
  | refMore {b b' : Bracket} (hb : d.bracket = some b) (h : b.step t = .more b') :
    Turn known d t (.more { d.begun t.position with bracket := some b' })
  | refDone {b : Bracket} {e : Element} (hb : d.bracket = some b) (h : b.step t = .done e) :
    Turn known d t (proceed ({ d.begun t.position with bracket := none }.push e b.position))
  | refFailed {b : Bracket} {e : RuleError} (hb : d.bracket = some b) (h : b.step t = .failed e) :
    Turn known d t (.failed e)
  | branch {g : Group} {outer : List Group} (hb : d.bracket = none) (hg : d.groups = g :: outer)
    (hk : t.kind = .pipe) :
    Turn known d t (.more { d.begun t.position with
      groups := { g with branches := g.branches ++ [g.branch], branch := [] } :: outer })
  | close {g : Group} {outer : List Group} {e : Element} (hb : d.bracket = none)
    (hg : d.groups = g :: outer) (hk : t.kind = .closeParen) (h : g.close = .ok e) :
    Turn known d t (proceed ({ d.begun t.position with groups := outer }.push e g.position))
  | closeFailed {g : Group} {outer : List Group} {e : RuleError} (hb : d.bracket = none)
    (hg : d.groups = g :: outer) (hk : t.kind = .closeParen) (h : g.close = .error e) :
    Turn known d t (.failed e)
  | separate (hb : d.bracket = none) (hg : d.groups = []) (hpart : d.part ≠ .environment)
    (hk : endsPart d.part t.kind = true) :
    Turn known d t (.more ((d.begun t.position).separate (d.startAt t.position)))
  | finish (hb : d.bracket = none) (hg : d.groups = []) (hpart : d.part = .environment)
    (hk : t.EndsLine) :
    Turn known d t (.done ((d.begun t.position).complete (d.startAt t.position)))
  | single {e : Element} (hb : d.bracket = none) (h : d.part.single? known t = some e) :
    Turn known d t (proceed ((d.begun t.position).push e t.position))
  | openBracket (hb : d.bracket = none) (hk : t.kind = .openBracket) :
    Turn known d t (.more { d.begun t.position with bracket := some { position := t.position } })
  | openGroup (hb : d.bracket = none) (hk : t.kind = .openParen) (hpart : d.part ≠ .result) :
    Turn known d t (.more
      { d.begun t.position with groups := { position := t.position } :: d.groups })
  | unexpected (hb : d.bracket = none)
    (hgroup : t.kind = .pipe ∨ t.kind = .closeParen → d.groups = [])
    (hpart : endsPart d.part t.kind = true → d.groups ≠ [])
    (hsingle : d.part.single? known t = none) (hbracket : t.kind ≠ .openBracket)
    (hparen : t.kind = .openParen → d.part = .result) :
    Turn known d t (.failed (.ofToken d.part.production
      (if d.groups.isEmpty then expected d.part else expectedInGroup) t))

theorem turn (known : List Text) (d : Draft) (t : Token) : Turn known d t (d.step known t) := by
  unfold step
  dsimp only
  split
  · rename_i b hb
    split
    · exact .refMore hb (by assumption)
    · exact .refDone hb (by assumption)
    · exact .refFailed hb (by assumption)
  rename_i hb
  split
  · exact .branch hb (by assumption) (by assumption)
  · split
    · exact .close hb (by assumption) (by assumption) (by assumption)
    · exact .closeFailed hb (by assumption) (by assumption) (by assumption)
  rename_i hpipe hclose
  split
  · rename_i hends
    rw [Bool.and_eq_true, List.isEmpty_iff] at hends
    split
    · rename_i hpart
      refine .finish hb hends.1 hpart ?_
      have hkind := hends.2
      rw [hpart] at hkind
      simpa [endsPart, Token.EndsLine] using hkind
    · exact .separate hb hends.1 (by assumption) hends.2
  rename_i hends
  split
  · rename_i hk
    exact .single hb (by rw [RulePart.single?, hk, Element.ofWord_eq])
  split
  · rename_i hk
    exact .single hb (by rw [RulePart.single?, hk])
  split
  · exact .openBracket hb (by assumption)
  split
  · rename_i hk
    exact .openGroup hb hk.1 hk.2
  split
  · rename_i hk
    exact .single hb (by rw [RulePart.single?, hk.1]; exact if_pos hk.2)
  split
  · rename_i hk
    exact .single hb (by rw [RulePart.single?, hk.1]; exact if_pos hk.2)
  rename_i hword hidentifier hbracket hparen hplaceholder hboundary
  refine .unexpected hb ?_ ?_ ?_ hbracket ?_
  · intro hk
    cases hg : d.groups with
    | nil => rfl
    | cons g outer => exact (hk.elim (hpipe g outer · hg) (hclose g outer · hg)).elim
  · intro hk hg
    rw [hk, hg] at hends
    exact hends rfl
  · unfold RulePart.single?
    split
    · exact absurd (by assumption) hword
    · exact absurd (by assumption) hidentifier
    · exact if_neg fun hpart => hplaceholder ⟨by assumption, hpart⟩
    · exact if_neg fun hpart => hboundary ⟨by assumption, hpart⟩
    · rfl
  · exact fun hk => Decidable.not_not.mp fun hpart => hparen ⟨hk, hpart⟩

theorem Turn.eq_step {r : Progress Draft (Except RuleError (Rule × Position))}
    (h : Turn known d t r) : d.step known t = r := by
  obtain ⟨part, start, elements, groups, bracket, target, targetStart, result, resultStart⟩ := d
  obtain ⟨kind, text, position⟩ := t
  cases h with
  | refMore hb h =>
    subst hb
    simp only [step, h, begun, startAt]
  | refDone hb h =>
    subst hb
    simp only [step, h, begun, startAt]
  | refFailed hb h =>
    subst hb
    simp only [step, h]
  | branch hb hg hk =>
    subst hb hg hk
    rfl
  | close hb hg hk h =>
    subst hb hg hk
    simp only [step, h, begun, startAt]
  | closeFailed hb hg hk h =>
    subst hb hg hk
    simp only [step, h]
  | separate hb hg hpart hk =>
    subst hb hg
    cases part with
    | environment => exact absurd rfl hpart
    | target =>
      simp only [endsPart, Bool.or_eq_true, decide_eq_true_eq] at hk
      rcases hk with rfl | rfl <;> rfl
    | result =>
      simp only [endsPart, decide_eq_true_eq] at hk
      subst hk
      rfl
  | finish hb hg hpart hk =>
    subst hb hg hpart
    rcases hk with hk | hk <;> subst hk <;> rfl
  | single hb h =>
    subst hb
    unfold RulePart.single? at h
    split at h
    · rename_i hk
      subst hk
      cases h
      cases part <;> simp [step, endsPart, begun, startAt, Element.ofWord_eq]
    · rename_i hk
      subst hk
      cases h
      cases part <;> simp [step, endsPart, begun, startAt]
    · rename_i hk
      subst hk
      split at h <;> cases h
      rename_i hpart
      subst hpart
      simp [step, endsPart, begun, startAt]
    · rename_i hk
      subst hk
      split at h <;> cases h
      rename_i hpart
      subst hpart
      simp [step, endsPart, begun, startAt]
    · cases h
  | openBracket hb hk =>
    subst hb hk
    cases part <;> simp [step, endsPart, begun, startAt]
  | openGroup hb hk hpart =>
    subst hb hk
    cases part <;> simp [step, endsPart, begun, startAt] at hpart ⊢
  | unexpected hb hgroup hpart hsingle hbracket hparen =>
    subst hb
    have hends : ¬ (groups.isEmpty && endsPart part kind) = true := by
      rw [Bool.and_eq_true, List.isEmpty_iff]
      exact fun h => hpart h.2 h.1
    have hword : kind ≠ .word := by
      rintro rfl
      cases hsingle
    have hidentifier : kind ≠ .identifier := by
      rintro rfl
      cases hsingle
    have hplaceholder : ¬ (kind = .placeholder ∧ part = .environment) := by
      rintro ⟨rfl, rfl⟩
      cases hsingle
    have hboundary : ¬ (kind = .boundary ∧ part = .environment) := by
      rintro ⟨rfl, rfl⟩
      cases hsingle
    unfold step
    dsimp only
    split
    · cases hgroup (.inl rfl)
    · cases hgroup (.inr rfl)
    rw [if_neg hends, if_neg hword, if_neg hidentifier, if_neg hbracket,
      if_neg fun h => h.2 (hparen h.1), if_neg hplaceholder, if_neg hboundary]

/-- A turn that is taken is the only one. -/
theorem turn_iff {r : Progress Draft (Except RuleError (Rule × Position))} :
    Turn known d t r ↔ d.step known t = r :=
  ⟨Turn.eq_step, fun h => h ▸ turn known d t⟩

theorem proceed_eq_more {x : Except RuleError Draft} : proceed x = .more d ↔ x = .ok d := by
  cases x <;> simp [proceed]

theorem step_eq_done {r : Except RuleError (Rule × Position)} (h : d.step known t = .done r) :
    d.part = .environment ∧ ∃ start, r = d.complete start := by
  generalize hr : Progress.done r = result at h
  cases turn_iff.mpr h with
  | finish hb hg hpart hk =>
    cases hr
    exact ⟨hpart, _, rfl⟩
  | refDone | close | single => exact absurd hr.symm (proceed_ne_done _ _)
  | _ => cases hr

/-- What a rule is completed from has all that every token keeps. -/
theorem exists_complete_of_read {P : Draft → Prop} {ts : List Token} {r : Rule × Position}
    (hstep : ∀ d d', ∀ t ∈ ts, P d → d.step known t = .more d' → P d') (hd : P d)
    (h : (d.read known ts).result = .ok r) :
    ∃ d' p, P d' ∧ d'.part = .environment ∧ d'.complete p = .ok r := by
  induction ts generalizing d with
  | nil => cases h
  | cons t ts ih =>
    rw [read] at h
    split at h
    · rename_i d' hmore
      exact ih (fun d d' t ht => hstep d d' t (List.mem_cons_of_mem _ ht))
        (hstep d d' t (List.mem_cons_self ..) hd hmore) h
    · rename_i result hdone
      obtain ⟨hpart, start, rfl⟩ := step_eq_done hdone
      exact ⟨d, start, hd, hpart, h⟩
    · cases h

end Draft

end SoundChange
