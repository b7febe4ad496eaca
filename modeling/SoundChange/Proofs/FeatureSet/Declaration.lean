import SoundChange.Proofs.FeatureSet.Polarity
import SoundChange.Proofs.Statement.Declaration

/-!
# Declarations of feature-sets

A declaration lists the members that are no marked forms, each base form with its marked form
(`FeatureSet.listed`). What is read back from it (`FeatureSet.declared`) has the pairs and members
that these entries bring along. A pair whose base form is itself a marked form has no entry, and is
lost: so a feature-set is read back if and only if no segment is both a base form and a marked form
(`FeatureSet.Matched.declared_eq_self_iff`). `FeatureSet.readAll_display_afterAll` says so of the
pairs that were added.
-/

namespace SoundChange.FeatureSet

open Token (Spells Chunk tokenizeFrom)

variable {depth : Nat} {e : Token} {rest ts : List Token} {f g : FeatureSet} {l : List Text}
  {m s w : Text} {p : Text × Text}

/-! ## Spelling -/

/-- The members with an entry of their own. -/
def listed (f : FeatureSet) : List Text := f.members.toList.filter fun m => (f.removal m).isNone

/-- The tokens of an entry. -/
def spellMember (f : FeatureSet) (member : Text) : List (TokenKind × Text) :=
  match f.addition member with
  | some marked => [(.word, member), (.arrow, ['=', '>']), (.word, marked)]
  | none => [(.word, member)]

/-- The tokens of some entries, with a comma between each two. -/
def spellMembers (f : FeatureSet) (members : List Text) : List (TokenKind × Text) :=
  ((members.map f.spellMember).intersperse [(.comma, [','])]).flatten

/-- The tokens of the declaration. -/
def spell (f : FeatureSet) : List (TokenKind × Text) :=
  (.openBracket, ['[']) :: (.word, f.name) :: (.closeBracket, [']']) :: (.openBrace, ['\x7b']) ::
    (f.spellMembers f.listed ++ [(.closeBrace, ['\x7d'])])

theorem mem_listed : s ∈ f.listed ↔ s ∈ f.members ∧ f.removal s = none := by
  rw [listed, List.mem_filter, Option.isNone_iff_eq_none, SortedSet.mem_def]

theorem chunk_displayMember (hm : m.IsWord) (hmarked : ∀ w, f.addition m = some w → w.IsWord) :
    Chunk depth (f.displayMember m) (f.spellMember m) := by
  rw [displayMember, spellMember]
  cases hadd : f.addition m with
  | none => exact .word hm
  | some w =>
    intro rest after hrest h
    have harrow : Spells depth (' ' :: '=' :: '>' :: ' ' :: (w ++ rest))
        ((.arrow, ['=', '>']) :: (.word, w) :: after) :=
      .blank rfl (.arrow (.blank rfl (.word (hmarked w hadd) hrest h)))
    simpa using Spells.word hm (Text.stopsWord_cons (by decide) _) harrow

/-- The name and the members are words. -/
structure Writable (f : FeatureSet) : Prop where
  name : f.name.IsWord
  members : ∀ s ∈ f.members, s.IsWord

theorem Matched.spells_display (h : f.Matched) (hwritable : f.Writable) :
    Spells 0 f.display f.spell := by
  have hclose : Spells 1 [' ', '\x7d'] [(.closeBrace, ['\x7d'])] :=
    .blank rfl (.mark rfl (by decide) .nil)
  have hentries : ∀ s ∈ f.listed, Chunk 1 (f.displayMember s) (f.spellMember s) := fun s hs =>
    chunk_displayMember (hwritable.members s (mem_listed.mp hs).1) fun w hw =>
      hwritable.members w (h.mem_of_addition hw).2
  have hmembers := Spells.listed hentries (Text.stopsWord_cons (by decide) _) hclose
  have hbody : Spells 1
      ((if (f.listed.map f.displayMember).isEmpty then []
        else ' ' :: ((f.listed.map f.displayMember).intersperse [',', ' ']).flatten) ++
          [' ', '\x7d'])
      (f.spellMembers f.listed ++ [(.closeBrace, ['\x7d'])]) := by
    split
    · rename_i hnone
      rw [List.isEmpty_iff, List.map_eq_nil_iff] at hnone
      rw [hnone]
      exact hclose
    · exact .blank rfl hmembers
  have hbrace : Spells 0 (' ' :: '\x7b' :: _) ((.openBrace, ['\x7b']) :: _) :=
    .blank rfl (.mark rfl (by decide) hbody)
  have hname : Spells 0 (f.name ++ ']' :: _) ((.word, f.name) :: (.closeBracket, [']']) :: _) :=
    .word hwritable.name (Text.stopsWord_cons (by decide) _) (.mark rfl (by decide) hbrace)
  have hopen : Spells 0 ('[' :: _) ((.openBracket, ['[']) :: _) := .mark rfl (by decide) hname
  simpa [display, spell, listed] using hopen

/-! ## Reading -/

/-- What an entry adds. -/
def enter (f g : FeatureSet) (member : Text) : FeatureSet :=
  match f.addition member with
  | some marked => g.paired member marked
  | none => g.addMember member

/-- What is read back. -/
def declared (f : FeatureSet) : FeatureSet := f.listed.foldl f.enter (new f.name)

theorem name_enter (f g : FeatureSet) (m : Text) : (f.enter g m).name = g.name := by
  unfold enter
  split <;> rfl

theorem mem_pairs_enter :
    p ∈ (f.enter g m).pairs ↔ p ∈ g.pairs ∨ p.1 = m ∧ f.addition p.1 = some p.2 := by
  unfold enter
  cases hadd : f.addition m with
  | none =>
    have hno : ¬ (p.1 = m ∧ f.addition p.1 = some p.2) := by
      rintro ⟨rfl, hp⟩
      cases hadd.symm.trans hp
    rw [or_iff_left hno]
    rfl
  | some w =>
    obtain ⟨b, w'⟩ := p
    simp only [paired, SortedSet.mem_insert, Prod.mk.injEq]
    constructor
    · rintro (⟨rfl, rfl⟩ | hp)
      · exact .inr ⟨rfl, hadd⟩
      · exact .inl hp
    · rintro (hp | ⟨rfl, hp⟩)
      · exact .inr hp
      · exact .inl ⟨rfl, Option.some.inj (hp.symm.trans hadd)⟩

theorem mem_members_enter :
    s ∈ (f.enter g m).members ↔ s ∈ g.members ∨ s = m ∨ f.addition m = some s := by
  unfold enter
  cases hadd : f.addition m with
  | none => simp [addMember, or_comm]
  | some w =>
    simp only [paired, SortedSet.mem_insert, Option.some.injEq]
    constructor
    · rintro (rfl | rfl | hs)
      · exact .inr (.inr rfl)
      · exact .inr (.inl rfl)
      · exact .inl hs
    · rintro (hs | rfl | rfl)
      · exact .inr (.inr hs)
      · exact .inr (.inl rfl)
      · exact .inl rfl

theorem name_foldl_enter (f : FeatureSet) (l : List Text) (g : FeatureSet) :
    (l.foldl f.enter g).name = g.name := by
  induction l generalizing g with
  | nil => rfl
  | cons m l ih => rw [List.foldl_cons, ih, name_enter]

theorem mem_pairs_foldl_enter : p ∈ (l.foldl f.enter g).pairs ↔
    p ∈ g.pairs ∨ p.1 ∈ l ∧ f.addition p.1 = some p.2 := by
  induction l generalizing g with
  | nil => simp
  | cons m l ih => rw [List.foldl_cons, ih, mem_pairs_enter, List.mem_cons, or_and_right, or_assoc]

theorem mem_members_foldl_enter : s ∈ (l.foldl f.enter g).members ↔
    s ∈ g.members ∨ ∃ m ∈ l, s = m ∨ f.addition m = some s := by
  induction l generalizing g with
  | nil => simp
  | cons m l ih => simp only [List.foldl_cons, ih, mem_members_enter, List.exists_mem_cons_iff,
      or_assoc]

/-- The feature-set has only pairs of the other one. -/
structure Part (f g : FeatureSet) : Prop where
  matched : g.Matched
  pairs : ∀ p ∈ g.pairs, p ∈ f.pairs

namespace Part

theorem new (f : FeatureSet) (name : Text) : Part f (new name) where
  matched := .new name
  pairs _ hp := absurd hp SortedSet.not_mem_empty

/-- A pair of the whole is not refused. -/
theorem not_conflicts (h : Part f g) (hf : f.Matched) (hm : f.addition m = some w) :
    ¬ g.Conflicts m w := by
  have hpair := hf.addition_eq_some_iff.mp hm
  rintro (⟨w', hw', hne⟩ | ⟨m', hm', hne⟩)
  · exact hne (hf.marked _ (h.pairs _ (h.matched.addition_eq_some_iff.mp hw')) _ hpair rfl)
  · exact hne (hf.base _ (h.pairs _ (h.matched.removal_eq_some_iff.mp hm')) _ hpair rfl)

theorem enter (h : Part f g) (hf : f.Matched) (m : Text) : Part f (f.enter g m) where
  matched := by
    unfold FeatureSet.enter
    split
    · rename_i w hm
      exact h.matched.paired (h.not_conflicts hf hm)
    · exact h.matched.addMember m
  pairs p hp := (mem_pairs_enter.mp hp).elim (h.pairs p) fun hnew =>
    hf.addition_eq_some_iff.mp hnew.2

end Part

/-- No arrow comes first, so a word before these tokens is an entry without a marked form. -/
def NoArrow (ts : List Token) : Prop := ∀ t ∈ ts.head?, t.kind ≠ .arrow

theorem readMembers_member (hpart : Part f g) (hf : f.Matched)
    (hts : ts.map Token.lexical = f.spellMember m) (hrest : NoArrow rest) :
    g.readMembers .between (ts ++ rest) = (f.enter g m).readMembers .between rest := by
  unfold spellMember at hts
  unfold enter
  cases hadd : f.addition m with
  | none =>
    simp only [hadd, List.map_eq_singleton_iff, Token.lexical_eq_iff] at hts
    obtain ⟨t, rfl, hk, rfl⟩ := hts
    have hany : ¬ (rest.head?.any fun t => t.kind = .arrow) = true := by
      rw [Option.any_eq_true]
      rintro ⟨t, ht, harrow⟩
      exact hrest t ht (of_decide_eq_true harrow)
    rw [List.singleton_append, readMembers, hk]
    dsimp only
    rw [if_neg hany]
  | some w =>
    simp only [hadd, List.map_eq_cons_iff, List.map_eq_nil_iff, Token.lexical_eq_iff] at hts
    obtain ⟨t, _, rfl, ⟨hk, rfl⟩, arrow, _, rfl, ⟨harrow, -⟩, t', _, rfl, ⟨hk', rfl⟩, rfl⟩ := hts
    have hok : g.addPair t.text t'.text = .ok (g.paired t.text t'.text) :=
      addPair_eq_ok_iff.mpr ⟨hpart.not_conflicts hf hadd, rfl⟩
    simp [readMembers, hk, harrow, hk', hok]

theorem readMembers_spell (hpart : Part f g) (hf : f.Matched)
    (hts : ts.map Token.lexical = f.spellMembers l) (hrest : NoArrow rest) :
    g.readMembers .between (ts ++ rest) = (l.foldl f.enter g).readMembers .between rest := by
  induction l generalizing g ts with
  | nil =>
    rw [spellMembers, List.map_nil, List.intersperse_nil, List.flatten_nil,
      List.map_eq_nil_iff] at hts
    subst hts
    rfl
  | cons m l ih =>
    cases l with
    | nil =>
      have hone : ts.map Token.lexical = f.spellMember m := by simpa [spellMembers] using hts
      exact readMembers_member hpart hf hone hrest
    | cons m' l =>
      simp only [spellMembers, List.map_cons, List.intersperse_cons_cons, List.flatten_cons,
        List.singleton_append, List.map_eq_append_iff, List.map_eq_cons_iff,
        Token.lexical_eq_iff] at hts
      obtain ⟨front, _, rfl, hfront, comma, back, rfl, ⟨hk, -⟩, hback⟩ := hts
      have hcomma : NoArrow (comma :: (back ++ rest)) := by simp [NoArrow, hk]
      rw [List.append_assoc, List.cons_append, readMembers_member hpart hf hfront hcomma,
        readMembers, hk]
      exact ih (hpart.enter hf m) hback

/-- The tokens of a declaration are read as what its entries add. -/
theorem read_spell (h : f.Matched) (known : List Text) (hts : ts.map Token.lexical = f.spell)
    (he : e.kind = .endOfFile) :
    Statement.read known (ts ++ [e]) = ⟨.ok (.featureSet f.declared), [e]⟩ := by
  simp only [spell, List.map_eq_cons_iff, List.map_eq_append_iff, List.map_eq_nil_iff,
    Token.lexical_eq_iff] at hts
  obtain ⟨openBracket, _, rfl, ⟨hopen, -⟩, name, _, rfl, ⟨hname, htext⟩, closeBracket, _, rfl,
    ⟨hbracket, -⟩, brace, _, rfl, ⟨hbrace, -⟩, members, _, rfl, hmembers, close, _, rfl,
    ⟨hclose, -⟩, rfl⟩ := hts
  have hread : (new f.name).readMembers .between (members ++ [close, e]) =
      ⟨.ok f.declared, [e]⟩ := by
    rw [readMembers_spell (.new f f.name) h hmembers (by simp [NoArrow, hclose]), readMembers,
      hclose]
    dsimp only
    exact Reading.declared_endOfFile _ _ he
  have hform : Statement.form
      (openBracket :: name :: closeBracket :: brace :: (members ++ [close, e])) =
        .featureSet f.name := by
    simp [Statement.form, Token.isName, hopen, hname, htext, hbracket, hbrace]
  have hcons : openBracket :: name :: closeBracket :: brace :: (members ++ [close]) ++ [e] =
      openBracket :: name :: closeBracket :: brace :: (members ++ [close, e]) := by
    simp
  rw [hcons, Statement.read, hform]
  dsimp only
  rw [List.drop_succ_cons, List.drop_succ_cons, List.drop_succ_cons, List.drop_succ_cons,
    List.drop_zero, hread]
  rfl

/-- A displayed feature-set is read as what the entries of its members add. -/
theorem Matched.readFrom_display (h : f.Matched) (hwritable : f.Writable) (known : List Text)
    (p : Position) : Statement.readFrom known (tokenizeFrom 0 p f.display) =
      [⟨p.line, .ok (.featureSet f.declared)⟩] := by
  have hspells := h.spells_display hwritable
  obtain ⟨cs, hdisplay⟩ : ∃ cs, f.display = '[' :: cs := ⟨_, by rw [display]; rfl⟩
  rw [hdisplay] at hspells ⊢
  exact Statement.readFrom_spelled rfl (by decide) hspells fun ts e => read_spell h known

/-! ## What is lost -/

namespace Matched

variable (h : f.Matched)
include h

/-- The pairs whose base form is no marked form are read back. -/
theorem mem_pairs_declared : p ∈ f.declared.pairs ↔ p ∈ f.pairs ∧ f.removal p.1 = none := by
  have hnew : ¬ p ∈ (FeatureSet.new f.name).pairs := SortedSet.not_mem_empty
  rw [declared, mem_pairs_foldl_enter, or_iff_right hnew, mem_listed, h.addition_eq_some_iff]
  constructor
  · rintro ⟨⟨-, hnone⟩, hp⟩
    exact ⟨hp, hnone⟩
  · rintro ⟨hp, hnone⟩
    exact ⟨⟨(h.members p hp).1, hnone⟩, hp⟩

/-- So are the members, but for the marked forms of the other pairs. -/
theorem mem_members_declared : s ∈ f.declared.members ↔
    s ∈ f.members ∧ ∀ b, f.removal s = some b → f.removal b = none := by
  have hnew : ¬ s ∈ (FeatureSet.new f.name).members := SortedSet.not_mem_empty
  rw [declared, mem_members_foldl_enter, or_iff_right hnew]
  simp only [mem_listed]
  constructor
  · rintro ⟨m, ⟨hm, hnone⟩, rfl | hadd⟩
    · exact ⟨hm, fun b hb => absurd hb (by simp [hnone])⟩
    · refine ⟨(h.mem_of_addition hadd).2, fun b hb => ?_⟩
      obtain rfl : m = b := Option.some.inj ((h.addition_iff_removal.mp hadd).symm.trans hb)
      exact hnone
  · rintro ⟨hs, hbase⟩
    cases hremove : f.removal s with
    | none => exact ⟨s, ⟨hs, hremove⟩, .inl rfl⟩
    | some b =>
      have hadd := h.addition_iff_removal.mpr hremove
      exact ⟨b, ⟨(h.mem_of_addition hadd).1, hbase b hremove⟩, .inr hadd⟩

theorem rolesApart_iff_removal : f.RolesApart ↔ ∀ p ∈ f.pairs, f.removal p.1 = none := by
  simp only [RolesApart, Option.eq_none_iff_forall_ne_some, ne_eq, h.removal_eq_some_iff]
  constructor
  · intro hapart p hp b hb
    exact hapart p hp _ hb rfl
  · rintro hnone p hp ⟨b, m⟩ hq rfl
    exact hnone p hp b hq

/-- Nothing is lost if and only if no base form is a marked form. -/
theorem declared_eq_self_iff : f.declared = f ↔ f.RolesApart := by
  rw [h.rolesApart_iff_removal]
  constructor
  · intro heq p hp
    rw [← heq, h.mem_pairs_declared] at hp
    exact hp.2
  · intro hnone
    have hpairs : f.declared.pairs = f.pairs := SortedSet.ext fun p => by
      rw [h.mem_pairs_declared, and_iff_left_iff_imp]
      exact hnone p
    have hmembers : f.declared.members = f.members := SortedSet.ext fun s => by
      rw [h.mem_members_declared, and_iff_left_iff_imp]
      exact fun _ b hb => hnone _ (h.removal_eq_some_iff.mp hb)
    have hname : f.declared.name = f.name := name_foldl_enter ..
    calc f.declared = ⟨f.declared.name, f.declared.members, f.declared.pairs⟩ := rfl
      _ = f := by rw [hname, hmembers, hpairs]

end Matched

theorem name_call (f : FeatureSet) (c : Call) : (f.call c).1.name = f.name := by
  cases c with
  | member s => rfl
  | pair b m =>
    rw [call]
    cases hadd : f.addPair b m with
    | error e => rfl
    | ok f' =>
      obtain ⟨-, rfl⟩ := addPair_eq_ok_iff.mp hadd
      rfl

theorem name_afterAll (f : FeatureSet) (calls : List Call) : (f.afterAll calls).name = f.name := by
  induction calls generalizing f with
  | nil => rfl
  | cons c calls ih => rw [afterAll_cons, ih, name_call]

/-- A displayed feature-set is read as one feature-set of that name. Of the pairs it has those whose
base form is no marked form, and of the members all but the marked forms of the other pairs. So it
is the feature-set itself if and only if no pair that was added has its base form as the marked form
of a pair that was added. -/
theorem readAll_display_afterAll (name : Text) (calls : List Call) (hname : name.IsWord)
    (hmembers : ∀ s ∈ ((new name).afterAll calls).members, s.IsWord) :
    let f := (new name).afterAll calls
    ∃ f', Statement.readAll f.display = [⟨1, .ok (.featureSet f')⟩] ∧ f'.name = name ∧
      (∀ p, p ∈ f'.pairs ↔ p ∈ f.pairs ∧ f.removal p.1 = none) ∧
      (∀ s, s ∈ f'.members ↔ s ∈ f.members ∧ ∀ b, f.removal s = some b → f.removal b = none) ∧
      (f' = f ↔ Call.RolesApart ((new name).accepted calls)) := by
  intro f
  have h : f.Matched := (Matched.new name).afterAll calls
  have hf : f.name = name := name_afterAll ..
  have hwritable : f.Writable := ⟨by rwa [hf], hmembers⟩
  exact ⟨f.declared, h.readFrom_display hwritable [] .start, (name_foldl_enter ..).trans hf,
    fun _ => h.mem_pairs_declared, fun _ => h.mem_members_declared,
    h.declared_eq_self_iff.trans (rolesApart_afterAll name calls)⟩

/-- Pairs and a bare member, with a pair that is refused. -/
def voicing : List Call :=
  [.pair ['p'] ['b'], .member ['m'], .pair ['t'] ['d'], .pair ['p'] ['v'], .member ['b']]

theorem voicing_readAll_display : Text.IsWord ['v'] ∧
    (∀ s ∈ ((new ['v']).afterAll voicing).members, s.IsWord) ∧
    let f := (new ['v']).afterAll voicing
    f.display = "[v] { m, p => b, t => d }".toList ∧
      Statement.readAll f.display = [⟨1, .ok (.featureSet f)⟩] := by
  have hname : Text.IsWord ['v'] := by decide
  have hmembers : ∀ s ∈ ((new ['v']).afterAll voicing).members, s.IsWord := by
    have hlist : ((new ['v']).afterAll voicing).members.toList =
        [['b'], ['d'], ['m'], ['p'], ['t']] := by decide
    simp only [SortedSet.mem_def, hlist]
    decide
  have hroles : ((new ['v']).afterAll voicing).RolesApart := by
    have hlist : ((new ['v']).afterAll voicing).pairs.toList =
        [(['p'], ['b']), (['t'], ['d'])] := by decide
    simp only [RolesApart, SortedSet.mem_def, hlist]
    decide
  obtain ⟨f', hread, -, -, -, hself⟩ := readAll_display_afterAll ['v'] voicing hname hmembers
  obtain rfl := hself.mpr ((rolesApart_afterAll ['v'] voicing).mp hroles)
  exact ⟨hname, hmembers, by decide, hread⟩

/-- Of a chain of two pairs the second one is not displayed, and so not read back. -/
theorem chain_not_readAll_display :
    let f := (new ['f']).afterAll chain
    (new ['f']).accepted chain = chain ∧ f.Writable ∧ f.display = "[f] { p => b }".toList ∧
      (['b'], ['v']) ∈ f.pairs ∧
      ∀ line, Statement.readAll f.display ≠ [⟨line, .ok (.featureSet f)⟩] := by
  intro f
  have h : f.Matched := (Matched.new ['f']).afterAll chain
  have hwritable : f.Writable := by
    have hlist : f.members.toList = [['b'], ['p'], ['v']] := by decide
    refine ⟨by decide, ?_⟩
    simp only [SortedSet.mem_def, hlist]
    decide
  have hpair : (['b'], ['v']) ∈ f.pairs := h.addition_eq_some_iff.mp (by decide)
  have hread := h.readFrom_display hwritable [] .start
  refine ⟨by decide, hwritable, by decide, hpair, fun line hself => ?_⟩
  obtain ⟨-, heq⟩ : Position.start.line = line ∧ f.declared = f := by
    simpa using hread.symm.trans hself
  rw [← heq, h.mem_pairs_declared] at hpair
  exact absurd hpair.2 (by decide)

end SoundChange.FeatureSet
