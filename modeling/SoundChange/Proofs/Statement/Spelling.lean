import SoundChange.Proofs.Statement.Grammatical
import SoundChange.Proofs.Token.Spelling

/-!
# Writing rules

`Rule.spell` writes a rule as the kinds and texts of tokens. Every grammatical rule that is written
so is read back, wherever its tokens stand (`Statement.readFrom_spell`). The tokens of an element
add it to a draft that is ready for it (`Draft.reads_element`), in whatever group or part.
-/

namespace SoundChange

open Element (Every EveryOf EveryAmong everyOf_iff everyAmong_iff settle settleAll settleBranches)

variable {known : List Text} {d d' d'' : Draft} {t : Token} {ts ts' : List Token} {e : Element}
  {es es' : List Element} {g : Group} {outer : List Group} {p : Position} {rule : Rule}

/-! ## Spelling -/

/-- A reference between brackets. -/
def SetRef.spell : SetRef → List (TokenKind × Text)
  | category name => [(.word, name)]
  | feature present name =>
    [(if present then .plus else .minus, [SetRef.sign present]), (.word, name)]

namespace Element

mutual

/-- The tokens of an element. -/
def spell : Element → List (TokenKind × Text)
  | utterance text => [(.word, text)]
  | set ref => (.openBracket, ['[']) :: (ref.spell ++ [(.closeBracket, [']'])])
  | compound refs =>
    (.openBracket, ['[']) :: (refs.flatMap SetRef.spell ++ [(.closeBracket, [']'])])
  | optional body => (.openParen, ['(']) :: (spellAll body ++ [(.closeParen, [')'])])
  | disjunction branches =>
    (.openParen, ['(']) :: (spellBranches branches ++ [(.closeParen, [')'])])
  | boundary _ => [(.boundary, ['#'])]
  | placeholder => [(.placeholder, ['_'])]

/-- The tokens of a sequence. -/
def spellAll : List Element → List (TokenKind × Text)
  | [] => []
  | e :: es => spell e ++ spellAll es

/-- The tokens of some branches, with a bar between each two. -/
def spellBranches : List (List Element) → List (TokenKind × Text)
  | [] => []
  | [branch] => spellAll branch
  | branch :: branches => spellAll branch ++ (.pipe, ['|']) :: spellBranches branches

end

end Element

/-- The tokens of a rule, with an arrow or a slash behind the target. -/
def Rule.spellLine (arrow : Bool) (rule : Rule) : List (TokenKind × Text) :=
  Element.spellAll rule.target ++
    (if arrow then (.arrow, ['=', '>']) else (.slash, ['/'])) :: (Element.spellAll rule.result ++
      (.slash, ['/']) :: Element.spellAll rule.environment)

/-- The tokens of a rule and the end of its line. -/
def Rule.spell (arrow : Bool) (rule : Rule) : List (TokenKind × Text) :=
  rule.spellLine arrow ++ [(.newline, ['\n'])]

/-- What may stand in a group of a part of a rule, or in a result. -/
structure Element.Writable (known : List Text) (part : RulePart) (e : Element) : Prop where
  inGroup : e.InGroup known
  not_boundary : part ≠ .environment → e.isBoundary = false
  plain : part = .result → e.Plain

/-- There are only texts and features in a result. -/
theorem Element.Writable.part_ne_result {part : RulePart} (h : e.Writable known part)
    (htext : ∀ text, e ≠ .utterance text) (hset : ∀ ref, e ≠ .set ref) : part ≠ .result := by
  intro hpart
  rcases h.plain hpart with ⟨text, rfl⟩ | ⟨present, name, rfl⟩
  · exact htext text rfl
  · exact hset _ rfl

namespace Bracket

/-! ## Open brackets -/

/-- Reading some tokens leads from one open bracket to another. -/
inductive Run : Bracket → List Token → Bracket → Prop where
  | nil {b : Bracket} : Run b [] b
  | cons {b b' b'' : Bracket} {t : Token} {ts : List Token} (h : b.step t = .more b')
    (h' : Run b' ts b'') : Run b (t :: ts) b''

variable {b b' b'' : Bracket} {ref : SetRef} {refs : List SetRef}

theorem Run.append (h : Run b ts b') (h' : Run b' ts' b'') : Run b (ts ++ ts') b'' := by
  induction h with
  | nil => exact h'
  | cons h _ ih => exact .cons h (ih h')

theorem run_ref (hsign : b.sign = none) (hts : ts.map Token.lexical = ref.spell) :
    Run b ts { b with refs := b.refs ++ [ref] } := by
  cases ref with
  | category name =>
    simp only [SetRef.spell, List.map_eq_singleton_iff, Token.lexical_eq_iff] at hts
    obtain ⟨t, rfl, hkind, rfl⟩ := hts
    refine .cons ?_ .nil
    simp only [step, hsign, hkind]
  | feature present name =>
    simp only [SetRef.spell, List.map_eq_cons_iff, List.map_eq_nil_iff,
      Token.lexical_eq_iff] at hts
    obtain ⟨s, _, rfl, ⟨hs, -⟩, t, _, rfl, ⟨ht, rfl⟩, rfl⟩ := hts
    have hsigned : b.step s = .more { b with sign := some present } := by
      cases present <;> simp only [step, hsign, hs] <;> rfl
    refine .cons hsigned (.cons ?_ .nil)
    rw [step]
    dsimp only
    rw [if_pos (by simp [Token.isName, ht]), ← hsign]

/-- References are read one after the other. -/
theorem run_refs (hsign : b.sign = none) (hts : ts.map Token.lexical = refs.flatMap SetRef.spell) :
    Run b ts { b with refs := b.refs ++ refs } := by
  induction refs generalizing b ts with
  | nil =>
    rw [List.flatMap_nil, List.map_eq_nil_iff] at hts
    subst hts
    rw [List.append_nil]
    exact .nil
  | cons ref refs ih =>
    rw [List.flatMap_cons, List.map_eq_append_iff] at hts
    obtain ⟨front, back, rfl, hfront, hback⟩ := hts
    have hrest := ih (b := { b with refs := b.refs ++ [ref] }) hsign hback
    rw [List.append_assoc, List.singleton_append] at hrest
    exact (run_ref hsign hfront).append hrest

end Bracket

namespace Draft

/-! ## Runs of drafts -/

/-- Reading some tokens makes one draft of another. -/
def Reads (known : List Text) (d : Draft) (ts : List Token) (d' : Draft) : Prop :=
  ∀ rest, d.read known (ts ++ rest) = d'.read known rest

theorem Reads.nil : Reads known d [] d := fun _ => rfl

theorem Reads.cons (h : d.step known t = .more d') (h' : Reads known d' ts d'') :
    Reads known d (t :: ts) d'' := fun rest => by
  rw [List.cons_append, read, h]
  exact h' rest

theorem Reads.append (h : Reads known d ts d') (h' : Reads known d' ts' d'') :
    Reads known d (ts ++ ts') d'' := fun rest => by
  rw [List.append_assoc, h, h']

/-- The draft is in the middle of a part, and no bracket is open. -/
structure Ready (d : Draft) : Prop where
  started : d.start.isSome = true
  bracket : d.bracket = none

theorem begun_eq_self (h : d.start.isSome = true) (p : Position) : d.begun p = d := by
  obtain ⟨part, start, elements, groups, bracket, target, targetStart, result, resultStart⟩ := d
  cases start with
  | none => cases h
  | some start => rfl

/-- The second draft is the first one with some elements more, in the innermost open group or in the
present part. -/
inductive Adds (d : Draft) (es : List Element) : Draft → Prop where
  | outside {placed : List (Element × Position)} (hg : d.groups = [])
    (hplaced : placed.map (·.1) = es) : Adds d es { d with elements := d.elements ++ placed }
  | inside {g : Group} {outer : List Group} {boundary : Option Position}
    (hg : d.groups = g :: outer)
    (hboundary : g.boundary = none → (∀ e ∈ es, e.isBoundary = false) → boundary = none) :
    Adds d es { d with groups := { g with branch := g.branch ++ es, boundary } :: outer }

theorem Adds.nil (d : Draft) : d.Adds [] d := by
  obtain ⟨part, start, elements, groups, bracket, target, targetStart, result, resultStart⟩ := d
  cases groups with
  | nil => simpa using @Adds.outside _ [] [] rfl rfl
  | cons g outer => simpa using @Adds.inside _ [] g outer _ rfl fun h _ => h

theorem Adds.append (h : d.Adds es d') (h' : d'.Adds es' d'') : d.Adds (es ++ es') d'' := by
  cases h with
  | @outside placed hg hplaced =>
    cases h' with
    | @outside placed' _ hplaced' =>
      dsimp only
      rw [List.append_assoc]
      exact .outside hg (by rw [List.map_append, hplaced, hplaced'])
    | inside hg' => cases hg.symm.trans hg'
  | @inside g outer boundary hg hboundary =>
    cases h' with
    | outside hg' => cases hg'
    | inside hg' hboundary' =>
      cases hg'
      dsimp only
      rw [List.append_assoc]
      refine .inside hg fun hnone hes => ?_
      rw [List.forall_mem_append] at hes
      exact hboundary' (hboundary hnone hes.1) hes.2

theorem Adds.ready (h : d.Adds es d') (hd : d.Ready) : d'.Ready := by
  cases h <;> exact ⟨hd.started, hd.bracket⟩

theorem Adds.part_eq (h : d.Adds es d') : d'.part = d.part := by
  cases h <;> rfl

theorem Adds.groups_eq_nil (h : d.Adds es d') (hg : d.groups = []) : d'.groups = [] := by
  cases h with
  | outside => exact hg
  | inside hg' => cases hg.symm.trans hg'

theorem exists_push (he : d.groups = [] ∨ e ≠ .placeholder) (p : Position) :
    ∃ d', d.push e p = .ok d' ∧ d.Adds [e] d' := by
  unfold push
  split
  · rename_i hg
    exact ⟨_, rfl, .outside hg rfl⟩
  · rename_i g outer hg
    have hplace : e ≠ .placeholder := he.resolve_left (by rw [hg]; exact nofun)
    rw [if_neg (by rwa [Element.isPlaceholder_eq_true])]
    refine ⟨_, rfl, .inside hg fun hnone hboundary => ?_⟩
    rw [hboundary e (List.mem_singleton_self e), hnone]
    rfl

/-! ## Tokens of a draft that is under way -/

section Started

variable {b b' : Bracket} (hstart : d.start.isSome = true)
include hstart

theorem step_refMore (hb : d.bracket = some b) (h : b.step t = .more b') :
    d.step known t = .more { d with bracket := some b' } := by
  have hstep : d.step known t = _ := (Turn.refMore hb h).eq_step
  rwa [begun_eq_self hstart] at hstep

theorem step_refDone (hb : d.bracket = some b) (h : b.step t = .done e) :
    d.step known t = proceed ({ d with bracket := none }.push e b.position) := by
  have hstep : d.step known t = _ := (Turn.refDone hb h).eq_step
  rwa [begun_eq_self hstart] at hstep

theorem step_openBracket (hb : d.bracket = none) (hk : t.kind = .openBracket) :
    d.step known t = .more { d with bracket := some { position := t.position } } := by
  have hstep : d.step known t = _ := (Turn.openBracket hb hk).eq_step
  rwa [begun_eq_self hstart] at hstep

theorem step_openGroup (hb : d.bracket = none) (hk : t.kind = .openParen)
    (hpart : d.part ≠ .result) :
    d.step known t = .more { d with groups := { position := t.position } :: d.groups } := by
  have hstep : d.step known t = _ := (Turn.openGroup hb hk hpart).eq_step
  rwa [begun_eq_self hstart] at hstep

theorem step_branch (hb : d.bracket = none) (hg : d.groups = g :: outer) (hk : t.kind = .pipe) :
    d.step known t = .more { d with
      groups := { g with branches := g.branches ++ [g.branch], branch := [] } :: outer } := by
  have hstep : d.step known t = _ := (Turn.branch hb hg hk).eq_step
  rwa [begun_eq_self hstart] at hstep

theorem step_close (hb : d.bracket = none) (hg : d.groups = g :: outer) (hk : t.kind = .closeParen)
    (h : g.close = .ok e) :
    d.step known t = proceed ({ d with groups := outer }.push e g.position) := by
  have hstep : d.step known t = _ := (Turn.close hb hg hk h).eq_step
  rwa [begun_eq_self hstart] at hstep

theorem step_single (hb : d.bracket = none) (h : d.part.single? known t = some e) :
    d.step known t = proceed (d.push e t.position) := by
  have hstep := (Turn.single hb h).eq_step
  rwa [begun_eq_self hstart] at hstep

end Started

/-! ## Elements -/

/-- What is read between brackets is read by the draft. -/
theorem reads_bracket (known : List Text) {b b' : Bracket} (hstart : d.start.isSome = true)
    (hb : d.bracket = some b) (h : b.Run ts b') :
    Reads known d ts { d with bracket := some b' } := by
  induction h generalizing d with
  | nil =>
    rw [← hb]
    exact .nil
  | cons hstep _ ih => exact .cons (step_refMore hstart hb hstep) (ih hstart rfl)

/-- A token of its own adds its element. -/
theorem reads_single (hd : d.Ready) (h : d.part.single? known t = some e)
    (he : d.groups = [] ∨ e ≠ .placeholder) : ∃ d', Reads known d [t] d' ∧ d.Adds [e] d' := by
  obtain ⟨d', hpush, hadds⟩ := exists_push he t.position
  refine ⟨d', .cons ?_ .nil, hadds⟩
  rw [step_single hd.started hd.bracket h, hpush]
  rfl

/-- References between brackets add the set or compound that they make. -/
theorem reads_set (refs : List SetRef) (hd : d.Ready) (he : e ≠ .placeholder)
    (helement : ∀ q, Bracket.element refs q = .ok e)
    (hts : ts.map Token.lexical =
      (.openBracket, ['[']) :: (refs.flatMap SetRef.spell ++ [(.closeBracket, [']'])])) :
    ∃ d', Reads known d ts d' ∧ d.Adds [e] d' := by
  simp only [List.map_eq_cons_iff, List.map_eq_append_iff, List.map_eq_nil_iff,
    Token.lexical_eq_iff] at hts
  obtain ⟨o, _, rfl, ⟨hopen, -⟩, inner, _, rfl, hinner, c, _, rfl, ⟨hclose, -⟩, rfl⟩ := hts
  obtain ⟨d', hpush, hadds⟩ := exists_push (d := d) (.inr he) o.position
  have hlast : Bracket.step { position := o.position, refs := [] ++ refs } c = .done e := by
    simp only [Bracket.step, hclose, List.nil_append, helement]
  have hself : { d with bracket := none } = d := by rw [← hd.bracket]
  have hrefs := reads_bracket known (d := { d with bracket := some { position := o.position } })
    hd.started rfl (Bracket.run_refs rfl hinner)
  refine ⟨d', .cons (step_openBracket hd.started hd.bracket hopen)
    (hrefs.append (.cons ?_ .nil)), hadds⟩
  refine (step_refDone (by exact hd.started) rfl hlast).trans ?_
  dsimp only
  rw [hself, hpush]
  rfl

/-- A group between parentheses adds the element that it makes. -/
theorem reads_group (hd : d.Ready) (hpart : d.part ≠ .result) (he : e ≠ .placeholder) {o c : Token}
    (hopen : o.kind = .openParen) (hclose : c.kind = .closeParen)
    (hreads : Reads known { d with groups := { position := o.position } :: d.groups } ts
      { d with groups := g :: d.groups }) (hg : g.close = .ok e) :
    ∃ d', Reads known d (o :: (ts ++ [c])) d' ∧ d.Adds [e] d' := by
  obtain ⟨d', hpush, hadds⟩ := exists_push (d := d) (.inr he) g.position
  refine ⟨d', .cons (step_openGroup hd.started hd.bracket hopen hpart)
    (hreads.append (.cons ?_ .nil)), hadds⟩
  have hstep : Draft.step known { d with groups := g :: d.groups } c = _ :=
    step_close hd.started hd.bracket rfl hclose hg
  rw [hstep]
  dsimp only
  rw [hpush]
  rfl

theorem close_optional (hnone : g.branches = [])
    (hboundary : g.boundary = none) : g.close = .ok (.optional g.branch) := by
  rw [Group.close, if_pos hnone, hboundary]

theorem close_disjunction {branches : List (List Element)} (hlength : 2 ≤ branches.length)
    (hinner : ∀ branch ∈ branches, Element.BoundariesAtEnds branch)
    (hg : g.branches ++ [g.branch] = branches) : g.close = .ok (.disjunction branches) := by
  subst hg
  have hne : g.branches ≠ [] := by
    rintro hnil
    rw [hnil] at hlength
    simp at hlength
  rw [Group.close, if_neg hne]
  dsimp only
  rw [if_neg]
  rw [Bool.not_eq_true, List.any_eq_false]
  exact fun branch hbranch => by
    rw [Element.hasInnerBoundary_eq_false.mpr (hinner branch hbranch)]
    exact Bool.false_ne_true

mutual

/-- The tokens of an element add it, with its boundaries not yet settled. -/
theorem reads_element : ∀ (e : Element) {d : Draft} {ts : List Token}, d.Ready →
    e.Every (Element.Writable known d.part) → ts.map Token.lexical = e.spell →
      ∃ d', Reads known d ts d' ∧ d.Adds [e.settle false] d'
  | .utterance text, d, ts, hd, he, hts => by
    simp only [Element.spell, List.map_eq_singleton_iff, Token.lexical_eq_iff] at hts
    obtain ⟨t, rfl, hkind, rfl⟩ := hts
    refine reads_single hd ?_ (.inr nofun)
    rw [RulePart.single?, hkind]
    dsimp only
    rw [Element.ofWord_eq, if_neg he.inGroup.grammatical]
    rfl
  | .set ref, d, ts, hd, he, hts =>
    reads_set [ref] hd nofun (fun _ => rfl) (by simpa [Element.spell] using hts)
  | .compound refs, d, ts, hd, he, hts => by
    refine reads_set refs hd nofun (fun q => ?_) hts
    have hlength : 2 ≤ refs.length := he.inGroup.grammatical
    match refs, hlength with
    | _ :: _ :: _, _ => rfl
  | .optional body, d, ts, hd, he, hts => by
    simp only [Element.spell, List.map_eq_cons_iff, List.map_eq_append_iff, List.map_eq_nil_iff,
      Token.lexical_eq_iff] at hts
    obtain ⟨o, _, rfl, ⟨hopen, -⟩, inner, _, rfl, hinner, c, _, rfl, ⟨hclose, -⟩, rfl⟩ := hts
    have hpart : d.part ≠ .result := he.1.part_ne_result nofun nofun
    obtain ⟨d₁, hreads, hadds⟩ := reads_all body
      (d := { d with groups := { position := o.position } :: d.groups }) ⟨hd.started, hd.bracket⟩
      he.2 hinner
    cases hadds with
    | outside hg => cases hg
    | inside hg hboundary =>
      cases hg
      refine reads_group (e := .optional _) hd hpart nofun hopen hclose hreads
        (close_optional rfl (hboundary rfl ?_))
      refine (Element.forall_mem_settleAll fun first e => ?_).mpr he.1.inGroup.grammatical
      rw [Element.isBoundary_settle]
  | .disjunction branches, d, ts, hd, he, hts => by
    simp only [Element.spell, List.map_eq_cons_iff, List.map_eq_append_iff, List.map_eq_nil_iff,
      Token.lexical_eq_iff] at hts
    obtain ⟨o, _, rfl, ⟨hopen, -⟩, inner, _, rfl, hinner, c, _, rfl, ⟨hclose, -⟩, rfl⟩ := hts
    have hpart : d.part ≠ .result := he.1.part_ne_result nofun nofun
    have hbranches : Element.Grammatical known (.disjunction (settleBranches false branches)) :=
      (Element.grammatical_settle_iff false (.disjunction branches)).mpr he.1.inGroup.grammatical
    have hne : branches ≠ [] := by
      rintro rfl
      exact absurd he.1.inGroup.grammatical.1 (by decide)
    obtain ⟨g, hreads, hg⟩ := reads_branches branches
      (d := { d with groups := { position := o.position } :: d.groups }) hne
      ⟨hd.started, hd.bracket⟩ rfl rfl he.2 hinner
    exact reads_group (e := .disjunction _) hd hpart nofun hopen hclose hreads
      (close_disjunction hbranches.1 hbranches.2 hg)
  | .boundary edge, d, ts, hd, he, hts => by
    simp only [Element.spell, List.map_eq_singleton_iff, Token.lexical_eq_iff] at hts
    obtain ⟨t, rfl, hkind, -⟩ := hts
    refine reads_single hd ?_ (.inr nofun)
    rw [RulePart.single?, hkind]
    exact if_pos (Decidable.not_not.mp fun h => absurd (he.not_boundary h) nofun)
  | .placeholder, d, ts, hd, he, hts => absurd rfl he.inGroup.ne_placeholder

theorem reads_all : ∀ (es : List Element) {d : Draft} {ts : List Token}, d.Ready →
    EveryOf (Element.Writable known d.part) es → ts.map Token.lexical = Element.spellAll es →
      ∃ d', Reads known d ts d' ∧ d.Adds (settleAll false es) d'
  | [], d, ts, hd, he, hts => by
    rw [Element.spellAll, List.map_eq_nil_iff] at hts
    subst hts
    exact ⟨d, .nil, .nil d⟩
  | e :: es, d, ts, hd, he, hts => by
    rw [Element.spellAll, List.map_eq_append_iff] at hts
    obtain ⟨front, back, rfl, hfront, hback⟩ := hts
    obtain ⟨d₁, hreads, hadds⟩ := reads_element e hd he.1 hfront
    obtain ⟨d₂, hreads', hadds'⟩ := reads_all es (hadds.ready hd) (hadds.part_eq ▸ he.2) hback
    exact ⟨d₂, hreads.append hreads', hadds.append hadds'⟩

/-- The tokens of some branches complete all of them but the last one. -/
theorem reads_branches : ∀ (branches : List (List Element)) {d : Draft} {g : Group}
    {outer : List Group} {ts : List Token}, branches ≠ [] → d.Ready → d.groups = g :: outer →
    g.branch = [] → EveryAmong (Element.Writable known d.part) branches →
      ts.map Token.lexical = Element.spellBranches branches →
      ∃ g' : Group, Reads known d ts { d with groups := g' :: outer } ∧
        g'.branches ++ [g'.branch] = g.branches ++ settleBranches false branches
  | [], _, _, _, _, hne, _, _, _, _, _ => absurd rfl hne
  | [branch], d, g, outer, ts, _, hd, hg, hnil, he, hts => by
    obtain ⟨d₁, hreads, hadds⟩ := reads_all branch hd he.1 hts
    cases hadds with
    | outside hg' => cases hg.symm.trans hg'
    | inside hg' _ =>
      cases hg.symm.trans hg'
      refine ⟨_, hreads, ?_⟩
      rw [hnil]
      rfl
  | branch :: branch' :: branches, d, g, outer, ts, _, hd, hg, hnil, he, hts => by
    simp only [Element.spellBranches, List.map_eq_append_iff, List.map_eq_cons_iff,
      Token.lexical_eq_iff] at hts
    obtain ⟨front, _, rfl, hfront, bar, back, rfl, ⟨hbar, -⟩, hback⟩ := hts
    obtain ⟨d₁, hreads, hadds⟩ := reads_all branch hd he.1 hfront
    cases hadds with
    | outside hg' => cases hg.symm.trans hg'
    | @inside _ _ boundary hg' _ =>
      cases hg.symm.trans hg'
      let g₁ : Group := { g with branch := g.branch ++ settleAll false branch, boundary }
      obtain ⟨g', hreads', hg'⟩ := reads_branches (branch' :: branches)
        (d := { d with
          groups := { g₁ with branches := g₁.branches ++ [g₁.branch], branch := [] } :: outer })
        (List.cons_ne_nil _ _) ⟨hd.started, hd.bracket⟩ rfl rfl he.2 hback
      have hstep : Draft.step known { d with groups := g₁ :: outer } bar = _ :=
        step_branch hd.started hd.bracket rfl hbar
      refine ⟨g', hreads.append (.cons hstep hreads'), ?_⟩
      rw [hg', settleBranches]
      dsimp only [g₁]
      rw [hnil, List.nil_append, List.append_assoc, List.singleton_append]
      rfl

end

/-! ## Parts of rules -/

/-- The elements of a part add themselves; in an environment the placeholder is among them. -/
theorem reads_outside (known : List Text) (hd : d.Ready) (hg : d.groups = [])
    (hes : ∀ e ∈ es, (e = .placeholder ∧ d.part = .environment) ∨
      e.Every (Element.Writable known d.part)) (hts : ts.map Token.lexical = Element.spellAll es) :
    ∃ d', Reads known d ts d' ∧ d.Adds (settleAll false es) d' := by
  induction es generalizing d ts with
  | nil =>
    rw [Element.spellAll, List.map_eq_nil_iff] at hts
    subst hts
    exact ⟨d, .nil, .nil d⟩
  | cons e es ih =>
    rw [Element.spellAll, List.map_eq_append_iff] at hts
    obtain ⟨front, back, rfl, hfront, hback⟩ := hts
    rw [List.forall_mem_cons] at hes
    have hfirst : ∃ d', Reads known d front d' ∧ d.Adds [e.settle false] d' := by
      rcases hes.1 with ⟨rfl, hpart⟩ | he
      · simp only [Element.spell, List.map_eq_singleton_iff, Token.lexical_eq_iff] at hfront
        obtain ⟨t, rfl, hkind, -⟩ := hfront
        refine reads_single hd ?_ (.inl hg)
        rw [RulePart.single?, hkind]
        exact if_pos hpart
      · exact reads_element e hd he hfront
    obtain ⟨d₁, hreads, hadds⟩ := hfirst
    obtain ⟨d₂, hreads', hadds'⟩ := ih (hadds.ready hd) (hadds.groups_eq_nil hg)
      (hadds.part_eq ▸ hes.2) hback
    exact ⟨d₂, hreads.append hreads', hadds.append hadds'⟩

theorem step_begun (known : List Text) (d : Draft) (t : Token) :
    (d.begun t.position).step known t = d.step known t := rfl

/-- A part is read up to the token behind it; it begins at the first of its tokens, or there. -/
theorem reads_part (known : List Text) (hb : d.bracket = none) (hg : d.groups = [])
    (hstart : d.start = none)
    (hes : ∀ e ∈ es, (e = .placeholder ∧ d.part = .environment) ∨
      e.Every (Element.Writable known d.part)) (hts : ts.map Token.lexical = Element.spellAll es)
    (hp : (ts ++ [t]).head?.map Token.position = some p) :
    ∃ placed : List (Element × Position), placed.map (·.1) = settleAll false es ∧
      ∀ rest, d.read known (ts ++ t :: rest) =
        Draft.read known { d with start := some p, elements := d.elements ++ placed }
          (t :: rest) := by
  have hself : d.begun p = { d with start := some p } := by
    rw [begun, startAt, hstart]
    rfl
  have hbegun (rest : List Token) :
      d.read known (ts ++ t :: rest) = (d.begun p).read known (ts ++ t :: rest) := by
    cases ts with
    | nil =>
      rw [← Option.some.inj hp, List.nil_append, read, read, step_begun]
    | cons first ts =>
      rw [← Option.some.inj hp, List.cons_append, read, read, step_begun]
  obtain ⟨d', hreads, hadds⟩ := reads_outside known (d := d.begun p) ⟨rfl, hb⟩ hg hes hts
  cases hadds with
  | inside hg' => cases hg.symm.trans hg'
  | @outside placed hg' hplaced =>
    refine ⟨placed, hplaced, fun rest => ?_⟩
    rw [hbegun, hreads, hself]

theorem step_separate (hstart : d.start = some p) (hb : d.bracket = none) (hg : d.groups = [])
    (hpart : d.part ≠ .environment) (hk : endsPart d.part t.kind = true) :
    d.step known t = .more (d.separate p) := by
  have hstep : d.step known t = _ := (Turn.separate hb hg hpart hk).eq_step
  rwa [begun_eq_self (by rw [hstart]; rfl), startAt, hstart] at hstep

theorem step_finish (hstart : d.start = some p) (hb : d.bracket = none) (hg : d.groups = [])
    (hpart : d.part = .environment) (hk : t.EndsLine) :
    d.step known t = .done (d.complete p) := by
  have hstep : d.step known t = _ := (Turn.finish hb hg hpart hk).eq_step
  rwa [begun_eq_self (by rw [hstart]; rfl), startAt, hstart] at hstep

/-- The draft of a grammatical rule passes all checks at the end of its line. -/
theorem complete_of_grammatical (h : rule.Grammatical known) (htarget : d.target = rule.target)
    (hresult : d.result = rule.result)
    (helements : d.elements.map (·.1) = settleAll false rule.environment) (p : Position) :
    d.complete p = .ok (rule, d.targetStart) := by
  have hplain : ∀ e ∈ d.result,
      (∀ refs, e ≠ .compound refs) ∧ ∀ name, e ≠ .set (.category name) := by
    intro e he
    rcases (h.result e (hresult ▸ he)).1 with ⟨_, rfl⟩ | ⟨_, _, rfl⟩ <;> exact ⟨nofun, nofun⟩
  have hcount : (settleAll false rule.environment).countP Element.isPlaceholder = 1 := by
    rw [Element.countP_settleAll fun first e => by cases e <;> rfl,
      Element.countP_isPlaceholder h.placeholder]
  have hboundary : d.elements.tail.dropLast.find? (·.1.isBoundary) = none :=
    find?_boundary_eq_none.mpr (helements ▸ Element.BoundariesAtEnds.settleAll_iff.mpr h.atEnds)
  have hsettled : settleAll true rule.environment = rule.environment :=
    Element.settleAll_eq_self fun leading edge hedge => by simpa using h.edges leading edge hedge
  rw [complete_of_checks hplain (htarget ▸ h.target_ne_nil) (helements ▸ hcount) hboundary, hresult,
    htarget, helements, Element.settleAll_settleAll, hsettled]

end Draft

namespace Rule.Grammatical

open Draft (reads_part step_separate step_finish endsPart separate complete_of_grammatical)

variable (h : rule.Grammatical known)
include h

theorem writable_target {e : Element} (he : e ∈ rule.target) :
    e.Every (Element.Writable known .target) :=
  (everyOf_iff.mp h.target e he).imp fun _ he => ⟨⟨he.1, he.2.2⟩, fun _ => he.2.1, nofun⟩

theorem writable_result {e : Element} (he : e ∈ rule.result) :
    e.Every (Element.Writable known .result) := by
  obtain ⟨hplain, hgrammatical⟩ := h.result e he
  rcases hplain with ⟨text, rfl⟩ | ⟨present, name, rfl⟩
  · exact ⟨⟨hgrammatical, nofun⟩, fun _ => rfl, fun _ => .inl ⟨_, rfl⟩⟩
  · exact ⟨⟨hgrammatical, nofun⟩, fun _ => rfl, fun _ => .inr ⟨_, _, rfl⟩⟩

theorem writable_environment {e : Element} (he : e ∈ rule.environment) :
    e = .placeholder ∨ e.Every (Element.Writable known .environment) := by
  have hgrammatical := everyOf_iff.mp h.environment e he
  obtain ⟨before, after, henvironment, hplaceholder⟩ := h.placeholder
  rw [henvironment, List.mem_append, List.mem_cons] at he
  have hwritable (hmem : e ∈ before ++ after) : e.Every (Element.Writable known .environment) :=
    (hgrammatical.and (everyOf_iff.mp hplaceholder e hmem)).imp fun _ he =>
      ⟨⟨he.1, he.2⟩, fun h => absurd rfl h, nofun⟩
  rcases he with he | rfl | he
  · exact .inr (hwritable (List.mem_append_left _ he))
  · exact .inl rfl
  · exact .inr (hwritable (List.mem_append_right _ he))

theorem read_target {first : Token} (hts : ts.map Token.lexical = Element.spellAll rule.target)
    (hfirst : (ts ++ [t]).head? = some first) (ht : endsPart .target t.kind = true)
    (rest : List Token) : ({} : Draft).read known (ts ++ t :: rest) =
      Draft.read known
        { part := .result, target := rule.target, targetStart := first.position } rest := by
  obtain ⟨placed, hplaced, hread⟩ := reads_part known (d := {}) rfl rfl rfl
    (fun _ he => .inr (h.writable_target he)) hts (congrArg (Option.map _) hfirst)
  rw [Element.settleAll_of_no_boundary (h.target.imp fun _ he => he.2.1)] at hplaced
  rw [hread, Draft.read, step_separate (p := first.position) rfl rfl rfl ?_ ht, separate]
  · dsimp only
    rw [List.nil_append, hplaced]
  · rintro ⟨⟩

theorem read_result {first : Token} (hts : ts.map Token.lexical = Element.spellAll rule.result)
    (hfirst : (ts ++ [t]).head? = some first) (ht : t.kind = .slash) (p : Position)
    (rest : List Token) :
    Draft.read known { part := .result, target := rule.target, targetStart := p }
        (ts ++ t :: rest) =
      Draft.read known {
        part := .environment, target := rule.target, targetStart := p
        result := rule.result, resultStart := first.position } rest := by
  obtain ⟨placed, hplaced, hread⟩ := reads_part known
    (d := { part := .result, target := rule.target, targetStart := p }) rfl rfl rfl
    (fun _ he => .inr (h.writable_result he)) hts (congrArg (Option.map _) hfirst)
  have hresult : EveryOf (fun e => e.isBoundary = false) rule.result :=
    everyOf_iff.mpr fun _ he => (h.writable_result he).imp fun _ he => he.not_boundary (by decide)
  rw [Element.settleAll_of_no_boundary hresult] at hplaced
  have hends : endsPart .result t.kind = true := by
    rw [ht]
    rfl
  rw [hread, Draft.read, step_separate (p := first.position) rfl rfl rfl ?_ hends, separate]
  · dsimp only
    rw [List.nil_append, hplaced]
  · rintro ⟨⟩

theorem read_environment (hts : ts.map Token.lexical = Element.spellAll rule.environment)
    (ht : t.kind = .newline) (p q : Position) (rest : List Token) :
    Draft.read known {
        part := .environment, target := rule.target, targetStart := p
        result := rule.result, resultStart := q } (ts ++ t :: rest) = ⟨.ok (rule, p), rest⟩ := by
  have hhead : ∃ first, (ts ++ [t]).head? = some first := by
    cases ts <;> exact ⟨_, rfl⟩
  obtain ⟨first, hfirst⟩ := hhead
  obtain ⟨placed, hplaced, hread⟩ := reads_part known
    (d := {
      part := .environment, target := rule.target, targetStart := p
      result := rule.result, resultStart := q })
    rfl rfl rfl (fun _ he => (h.writable_environment he).imp_left (⟨·, rfl⟩)) hts
    (congrArg (Option.map _) hfirst)
  rw [hread, Draft.read, step_finish (p := first.position) rfl rfl rfl rfl (.inl ht)]
  dsimp only
  rw [complete_of_grammatical h rfl rfl hplaced, Reading.finish, if_pos ht]

/-- The tokens of a rule are read as that rule, and nothing behind them is. -/
theorem read_spell {arrow : Bool} (hts : ts.map Token.lexical = rule.spell arrow) :
    ∃ t, ts.head? = some t ∧
      ∀ rest, ({} : Draft).read known (ts ++ rest) = ⟨.ok (rule, t.position), rest⟩ := by
  simp only [Rule.spell, Rule.spellLine, List.append_assoc, List.cons_append,
    List.map_eq_append_iff, List.map_eq_cons_iff, List.map_eq_nil_iff] at hts
  obtain ⟨target, _, rfl, htarget, bar, _, rfl, hbar, result, _, rfl, hresult, slash, _, rfl,
    hslash, environment, _, rfl, henvironment, newline, _, rfl, hnewline, rfl⟩ := hts
  have hbar : endsPart .target bar.kind = true := by
    cases arrow with
    | true => rw [(Token.lexical_eq_iff.mp hbar).1]; rfl
    | false => rw [(Token.lexical_eq_iff.mp hbar).1]; rfl
  have hhead (ts rest : List Token) (t : Token) : ∃ first, (ts ++ [t]).head? = some first ∧
      (ts ++ t :: rest).head? = some first := by
    cases ts <;> exact ⟨_, rfl, rfl⟩
  obtain ⟨first, hfirst, hfirst'⟩ := hhead target _ bar
  obtain ⟨second, hsecond, -⟩ := hhead result [] slash
  refine ⟨first, hfirst', fun rest => ?_⟩
  simp only [List.append_assoc, List.cons_append]
  rw [h.read_target htarget hfirst hbar,
    h.read_result hresult hsecond (Token.lexical_eq_iff.mp hslash).1,
    h.read_environment henvironment (Token.lexical_eq_iff.mp hnewline).1]
  rfl

end Rule.Grammatical

/-! ## Lines -/

/-- The token is none that a declaration or the end of a line is known by. -/
def InLine (x : TokenKind × Text) : Prop :=
  x.1 ≠ .openBrace ∧ x.1 ≠ .newline ∧ x.1 ≠ .endOfFile

instance (x : TokenKind × Text) : Decidable (InLine x) := by
  unfold InLine
  infer_instance

theorem SetRef.inLine_of_mem_spell (ref : SetRef) : ∀ x ∈ ref.spell, InLine x := by
  cases ref with
  | category name => simp [spell, InLine]
  | feature present name => cases present <;> simp [spell, InLine]

namespace Element

mutual

theorem inLine_of_mem_spell : ∀ (e : Element), ∀ x ∈ e.spell, InLine x
  | utterance _ => by simp [spell, InLine]
  | set ref => by
    simp only [spell, List.forall_mem_cons, List.forall_mem_append]
    exact ⟨by decide, ref.inLine_of_mem_spell, by decide, nofun⟩
  | compound refs => by
    simp only [spell, List.forall_mem_cons, List.forall_mem_append]
    refine ⟨by decide, fun x hx => ?_, by decide, nofun⟩
    obtain ⟨ref, -, hx⟩ := List.mem_flatMap.mp hx
    exact ref.inLine_of_mem_spell x hx
  | optional body => by
    simp only [spell, List.forall_mem_cons, List.forall_mem_append]
    exact ⟨by decide, inLine_of_mem_spellAll body, by decide, nofun⟩
  | disjunction branches => by
    simp only [spell, List.forall_mem_cons, List.forall_mem_append]
    exact ⟨by decide, inLine_of_mem_spellBranches branches, by decide, nofun⟩
  | boundary _ => by simp [spell, InLine]
  | placeholder => by simp [spell, InLine]

theorem inLine_of_mem_spellAll : ∀ (es : List Element), ∀ x ∈ spellAll es, InLine x
  | [] => nofun
  | e :: es => by
    rw [spellAll, List.forall_mem_append]
    exact ⟨inLine_of_mem_spell e, inLine_of_mem_spellAll es⟩

theorem inLine_of_mem_spellBranches : ∀ (branches : List (List Element)),
    ∀ x ∈ spellBranches branches, InLine x
  | [] => nofun
  | [branch] => inLine_of_mem_spellAll branch
  | branch :: branch' :: branches => by
    rw [spellBranches, List.forall_mem_append, List.forall_mem_cons]
    · exact ⟨inLine_of_mem_spellAll branch, by decide,
        inLine_of_mem_spellBranches (branch' :: branches)⟩
    · exact nofun

end

end Element

theorem Rule.inLine_of_mem_spellLine (arrow : Bool) (rule : Rule) :
    ∀ x ∈ rule.spellLine arrow, InLine x := by
  simp only [spellLine, List.forall_mem_append, List.forall_mem_cons]
  refine ⟨Element.inLine_of_mem_spellAll _, ?_, Element.inLine_of_mem_spellAll _, by decide,
    Element.inLine_of_mem_spellAll _⟩
  cases arrow <;> decide

/-- A grammatical rule that is written out is read back. -/
theorem Statement.readFrom_spell (h : rule.Grammatical known) {arrow : Bool}
    (hts : ts.map Token.lexical = rule.spell arrow) : ∃ t, ts.head? = some t ∧
      readFrom known (Cursor.closed ts) = [⟨t.position.line, .ok (.rule rule t.position)⟩] := by
  obtain ⟨first, hfirst, hread⟩ := h.read_spell hts
  refine ⟨first, hfirst, ?_⟩
  rw [Rule.spell, List.map_eq_append_iff] at hts
  obtain ⟨line, _, rfl, hline, hnewline⟩ := hts
  simp only [List.map_eq_singleton_iff, Token.lexical_eq_iff] at hnewline
  obtain ⟨e, rfl, he, -⟩ := hnewline
  have hinLine : ∀ t ∈ line, InLine t.lexical := by
    rw [← List.forall_mem_map (f := Token.lexical) (P := InLine), hline]
    exact rule.inLine_of_mem_spellLine arrow
  have hclosed : Cursor.closed (line ++ [e]) = line ++ [e] ++ [.eof e.position] := by
    simp [Cursor.closed, Cursor.finalOf, he]
  have hbrace : ∀ t ∈ line ++ [e] ++ [.eof e.position], t.kind ≠ .openBrace := by
    simp only [List.forall_mem_append, List.forall_mem_singleton]
    exact ⟨⟨fun t ht => (hinLine t ht).1, by rw [he]; nofun⟩, nofun⟩
  have hform : form (line ++ [e] ++ [.eof e.position]) = .rule := by
    refine form_of_rule (fun a b rest hts hcategory => ?_) fun a b c d rest hts hfeature => ?_
    · exact hbrace b (by simp [hts]) hcategory.2
    · exact hbrace d (by simp [hts]) hfeature.2.2.2
  have hentry : read known (line ++ [e] ++ [.eof e.position]) =
      ⟨.ok (.rule rule first.position), [.eof e.position]⟩ := by
    rw [read, hform]
    dsimp only
    rw [hread]
    rfl
  rw [hclosed]
  cases line with
  | nil =>
    have := congrArg List.length hline
    simp [Rule.spellLine] at this
  | cons t line =>
    obtain rfl := Option.some.inj hfirst
    have ht : ¬ t.EndsLine := fun hend => hend.elim (hinLine t (List.mem_cons_self ..)).2.1
      (hinLine t (List.mem_cons_self ..)).2.2
    rw [List.cons_append, List.cons_append] at hentry ⊢
    rw [readFrom_cons known ht, hentry, readFrom_endOfFile rfl]

/-- A rule with nested groups, `a[V -x]/e[+y]/#([V]|c(d))_(i)`. -/
def nestedRule : Rule where
  target := [.utterance ['a'], .compound [.category ['V'], .feature false ['x']]]
  result := [.utterance ['e'], .set (.feature true ['y'])]
  environment := [
    .boundary .start,
    .disjunction [[.set (.category ['V'])], [.utterance ['c'], .optional [.utterance ['d']]]],
    .placeholder, .optional [.utterance ['i']]]

/-- How it can be written. -/
def nestedLine : Text := "a[V -x] => e[+y] / #([V]|c(d))_(i)\n".toList

theorem nestedRule_readFrom_spell : nestedRule.Grammatical [['V']] ∧
    (Token.lexed 0 .start nestedLine).map Token.lexical = nestedRule.spell true ∧
    ∃ t, (Token.lexed 0 .start nestedLine).head? = some t ∧
      Statement.readFrom [['V']] (Cursor.closed (Token.lexed 0 .start nestedLine)) =
        [⟨t.position.line, .ok (.rule nestedRule t.position)⟩] := by
  have hread : (Statement.read [['V']] (Token.tokenizeFrom 0 .start nestedLine)).result =
      .ok (.rule nestedRule .start) := by cbv
  have hgrammatical : nestedRule.Grammatical [['V']] :=
    Statement.grammatical_of_read (fun _ => Token.proper_of_mem_tokenizeFrom) hread
  have hlexical : (Token.lexed 0 .start nestedLine).map Token.lexical = nestedRule.spell true := by
    cbv
  exact ⟨hgrammatical, hlexical, Statement.readFrom_spell hgrammatical hlexical⟩

end SoundChange
