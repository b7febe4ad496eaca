import SoundChange.Proofs.Statement.File
import SoundChange.Proofs.Statement.Known
import SoundChange.Proofs.Statement.Turn
import Mathlib

/-!
# Logical lines

The tokens of a file fall into logical lines (`LogicalLine.linesOf`): the maximal non-empty runs of
tokens that end no line (`LogicalLine.mem_linesOf_iff`). A file has one entry for each of them,
which a reader that knows the categories of the earlier entries finds in that line alone
(`Statement.readAll_lines`). There is no statement in a line with a stray character: a reader that
succeeds leaves every stray character to what follows (`Statement.mem_rest_of_stray`).
-/

namespace SoundChange

variable {α : Type} {known : List Text} {line run rest ts ts' : List Token} {t e : Token}

/-- Some tokens of a file and the one that ends their line. -/
structure LogicalLine where
  tokens : List Token
  ending : Token
  deriving DecidableEq, Repr

instance (t : Token) : Decidable t.EndsLine := inferInstanceAs (Decidable (_ ∨ _))

namespace LogicalLine

/-- The tokens of the line and its end. -/
def all (line : LogicalLine) : List Token := line.tokens ++ [line.ending]

/-- The lines of some tokens, the first of which goes on a line that has begun with `run`. -/
def linesAfter (run : List Token) : List Token → List LogicalLine
  | [] => []
  | t :: ts =>
    if t.EndsLine then
      if run = [] then linesAfter [] ts else ⟨run, t⟩ :: linesAfter [] ts
    else linesAfter (run ++ [t]) ts

/-- The logical lines of some tokens. -/
def linesOf (ts : List Token) : List LogicalLine := linesAfter [] ts

/-! ## Maximal runs -/

/-- The line stands in some tokens as a maximal run of those that end no line. -/
structure IsRun (ts : List Token) (line : LogicalLine) : Prop where
  tokens_ne_nil : line.tokens ≠ []
  inLine : ∀ t ∈ line.tokens, ¬ t.EndsLine
  endsLine : line.ending.EndsLine
  stands : ∃ before after, ts = before ++ line.tokens ++ line.ending :: after ∧
    (∀ t, before.getLast? = some t → t.EndsLine)

theorem linesAfter_append (hline : ∀ t ∈ line, ¬ t.EndsLine) (run ts : List Token) :
    linesAfter run (line ++ ts) = linesAfter (run ++ line) ts := by
  induction line generalizing run with
  | nil => rw [List.append_nil, List.nil_append]
  | cons t line ih =>
    rw [List.forall_mem_cons] at hline
    rw [List.cons_append, linesAfter, if_neg hline.1, ih hline.2, List.append_assoc,
      List.singleton_append]

/-- What stands before the end of a line does not matter behind it. -/
theorem linesAfter_append_cons (he : e.EndsLine) (run before ts : List Token) :
    linesAfter run (before ++ e :: ts) = linesAfter run (before ++ [e]) ++ linesOf ts := by
  induction before generalizing run with
  | nil =>
    simp only [List.nil_append, linesAfter, if_pos he]
    split <;> rfl
  | cons t before ih =>
    simp only [List.cons_append, linesAfter, ih]
    split
    · split <;> rfl
    · rfl

theorem isRun_of_mem_linesAfter (hrun : ∀ t ∈ run, ¬ t.EndsLine) {line : LogicalLine}
    (h : line ∈ linesAfter run ts) (before : List Token)
    (hbefore : ∀ t, before.getLast? = some t → t.EndsLine) : IsRun (before ++ run ++ ts) line := by
  induction ts generalizing run before with
  | nil => cases h
  | cons t ts ih =>
    rw [linesAfter] at h
    by_cases ht : t.EndsLine
    · have hlater (h : line ∈ linesAfter [] ts) : IsRun (before ++ run ++ t :: ts) line := by
        have hlast : ∀ s, (before ++ run ++ [t]).getLast? = some s → s.EndsLine := by
          rintro s hs
          rw [List.getLast?_concat] at hs
          cases hs
          exact ht
        simpa using ih (List.forall_mem_nil _) h (before ++ run ++ [t]) hlast
      rw [if_pos ht] at h
      split at h
      · exact hlater h
      · rename_i hne
        rcases List.mem_cons.mp h with rfl | h
        · exact ⟨hne, hrun, ht, before, ts, rfl, hbefore⟩
        · exact hlater h
    · rw [if_neg ht] at h
      have hrun' : ∀ s ∈ run ++ [t], ¬ s.EndsLine := by
        rw [List.forall_mem_append, List.forall_mem_singleton]
        exact ⟨hrun, ht⟩
      simpa using ih hrun' h before hbefore

/-- The logical lines are the maximal non-empty runs of tokens that end no line. -/
theorem mem_linesOf_iff {line : LogicalLine} : line ∈ linesOf ts ↔ IsRun ts line := by
  constructor
  · exact fun h => isRun_of_mem_linesAfter (List.forall_mem_nil _) h [] (by simp)
  · obtain ⟨tokens, ending⟩ := line
    rintro ⟨hne, hline, hending, before, after, rfl, hbefore⟩
    dsimp only at *
    have hhere : ⟨tokens, ending⟩ ∈ linesOf (tokens ++ ending :: after) := by
      rw [linesOf, linesAfter_append hline, List.nil_append, linesAfter, if_pos hending, if_neg hne]
      exact List.mem_cons_self ..
    rw [List.append_assoc]
    rcases List.eq_nil_or_concat before with rfl | ⟨init, e, rfl⟩
    · exact hhere
    · rw [List.concat_eq_append, List.append_assoc, List.singleton_append, linesOf,
        linesAfter_append_cons (hbefore e (by simp))]
      exact List.mem_append_right _ hhere

/-- The lines have all tokens that end no line, in order. -/
theorem flatMap_tokens_linesOf (ts : List Token) (he : e.EndsLine) :
    (linesOf (ts ++ [e])).flatMap tokens = ts.filter fun t => ¬ t.EndsLine := by
  suffices h : ∀ run, (linesAfter run (ts ++ [e])).flatMap tokens =
      run ++ ts.filter fun t => ¬ t.EndsLine from h []
  induction ts with
  | nil =>
    intro run
    rw [List.nil_append, linesAfter, if_pos he]
    split
    · rename_i hrun
      rw [hrun]
      rfl
    · simp [linesAfter]
  | cons t ts ih =>
    intro run
    rw [List.cons_append, linesAfter]
    by_cases ht : t.EndsLine
    · rw [if_pos ht]
      split
      · rename_i hrun
        simp [ih, hrun, ht]
      · simp [ih, ht]
    · rw [if_neg ht, ih]
      simp [ht]

end LogicalLine

/-! ## Stray characters -/

theorem Bracket.step_of_stray (b : Bracket) (ht : t.kind = .stray) :
    ∃ error, b.step t = .failed error := by
  unfold step
  split
  · rw [if_neg (by simp [Token.isName, ht])]
    exact ⟨_, rfl⟩
  · rw [ht]
    exact ⟨_, rfl⟩

theorem Reading.mem_rest_of_stray_declared {production : Production} {a b : α}
    (h : (declared production a ts).result = .ok b) (ht : t ∈ ts) (hstray : t.kind = .stray) :
    t ∈ (declared production a ts).rest := by
  cases ts with
  | nil => cases ht
  | cons e ts =>
    rw [declared] at h ⊢
    split at h
    · rename_i he
      have htail : t ∈ ts := (List.mem_cons.mp ht).resolve_left fun heq => by
        subst heq
        simp [hstray] at he
      rw [if_pos he, finish]
      dsimp only
      split
      · exact htail
      · exact ht
    · cases h

namespace Category

theorem mem_rest_of_stray {c c' : Category} {b : Option Bracket}
    (h : (c.readMembers known b ts).result = .ok c') (ht : t ∈ ts) (hstray : t.kind = .stray) :
    t ∈ (c.readMembers known b ts).rest := by
  induction ts generalizing c b with
  | nil => cases ht
  | cons s ts ih =>
    by_cases hs : t = s
    · subst hs
      cases b with
      | some b =>
        obtain ⟨error, herror⟩ := b.step_of_stray hstray
        rw [readMembers, herror] at h
        cases h
      | none =>
        rw [readMembers, hstray] at h
        cases h
    have hmem := (List.mem_cons.mp ht).resolve_left hs
    cases b with
    | some b =>
      rw [readMembers] at h ⊢
      split at h
      · exact ih h hmem
      · exact ih h hmem
      · cases h
      · cases h
    | none =>
      rw [readMembers] at h ⊢
      split at h
      · split at h
        · rename_i hknown
          rw [if_pos hknown]
          exact ih h hmem
        · rename_i hknown
          rw [if_neg hknown]
          exact ih h hmem
      · exact ih h hmem
      · exact ih h hmem
      · exact ih h hmem
      · exact Reading.mem_rest_of_stray_declared h hmem hstray
      · cases h

end Category

namespace FeatureSet

/-- Behind a base form the reader passes the arrow that it has seen there. -/
theorem mem_rest_of_stray {f f' : FeatureSet} {slot : Slot}
    (hslot : ∀ b, slot = .base b → ts.head?.any (·.kind = .arrow) = true)
    (h : (f.readMembers slot ts).result = .ok f') (ht : t ∈ ts) (hstray : t.kind = .stray) :
    t ∈ (f.readMembers slot ts).rest := by
  induction ts generalizing f slot with
  | nil => cases ht
  | cons s ts ih =>
    by_cases hs : t = s
    · subst hs
      cases slot with
      | base b =>
        have harrow := hslot b rfl
        simp [hstray] at harrow
      | arrow b =>
        rw [readMembers, if_neg (by simp [hstray])] at h
        cases h
      | between =>
        rw [readMembers, hstray] at h
        cases h
    have hmem := (List.mem_cons.mp ht).resolve_left hs
    cases slot with
    | base b =>
      rw [readMembers] at h ⊢
      exact ih (by simp) h hmem
    | arrow b =>
      rw [readMembers] at h ⊢
      split at h
      · split at h
        · rename_i hword _ _ hpair
          rw [if_pos hword]
          exact ih (by simp) h hmem
        · cases h
      · cases h
    | between =>
      rw [readMembers] at h ⊢
      split at h
      · split at h
        · rename_i harrow
          rw [if_pos harrow]
          exact ih (fun _ _ => harrow) h hmem
        · rename_i harrow
          rw [if_neg harrow]
          exact ih (by simp) h hmem
      · exact ih (by simp) h hmem
      · exact Reading.mem_rest_of_stray_declared h hmem hstray
      · cases h

end FeatureSet

namespace Draft

theorem step_of_stray (known : List Text) (d : Draft) (ht : t.kind = .stray) :
    ∃ error, d.step known t = .failed error := by
  cases hb : d.bracket with
  | some b =>
    obtain ⟨error, herror⟩ := b.step_of_stray ht
    exact ⟨error, (Turn.refFailed hb herror).eq_step⟩
  | none =>
    refine ⟨_, (Turn.unexpected hb ?_ ?_ ?_ ?_ ?_).eq_step⟩
    · simp [ht]
    · cases hpart : d.part <;> simp [endsPart, ht]
    · rw [RulePart.single?, ht]
    · simp [ht]
    · simp [ht]

theorem mem_rest_of_stray {d : Draft} {r : Rule × Position}
    (h : (d.read known ts).result = .ok r) (ht : t ∈ ts) (hstray : t.kind = .stray) :
    t ∈ (d.read known ts).rest := by
  induction ts generalizing d with
  | nil => cases ht
  | cons s ts ih =>
    by_cases hs : t = s
    · subst hs
      obtain ⟨error, herror⟩ := d.step_of_stray known hstray
      rw [read, herror] at h
      cases h
    have hmem := (List.mem_cons.mp ht).resolve_left hs
    rw [read] at h ⊢
    split at h
    · exact ih h hmem
    · rw [Reading.finish]
      dsimp only
      split
      · exact hmem
      · exact ht
    · cases h

end Draft

namespace Statement

/-- A reader that succeeds leaves every stray character. -/
theorem mem_rest_of_stray {s : Statement} (h : (read known ts).result = .ok s) (ht : t ∈ ts)
    (hstray : t.kind = .stray) : t ∈ (read known ts).rest := by
  have hname {a : Token} (ha : a.isName = true) : t ≠ a := by
    rintro rfl
    simp [Token.isName, hstray] at ha
  have hkind {a : Token} {k : TokenKind} (ha : a.kind = k) (hk : k ≠ .stray) : t ≠ a := by
    rintro rfl
    exact hk (ha.symm.trans hstray)
  have hok {β : Type} {x : Except RuleError β} {f : β → Statement} (h : x.map f = .ok s) :
      ∃ b, x = .ok b := by
    cases x with
    | error => cases h
    | ok b => exact ⟨b, rfl⟩
  rw [read] at h ⊢
  split at h
  · rename_i hform
    obtain ⟨a, b, rest, rfl, ha, hb⟩ := form_eq_category hform
    obtain ⟨c, hc⟩ := hok h
    refine Category.mem_rest_of_stray hc ?_ hstray
    simpa [hname ha, hkind hb (by decide)] using ht
  · rename_i hform
    obtain ⟨a, b, c, d, rest, rfl, ha, hb, hc, hd⟩ := form_eq_featureSet hform
    obtain ⟨f, hf⟩ := hok h
    refine FeatureSet.mem_rest_of_stray (by simp) hf ?_ hstray
    simpa [hkind ha (by decide), hname hb, hkind hc (by decide), hkind hd (by decide)] using ht
  · obtain ⟨r, hr⟩ := hok h
    exact Draft.mem_rest_of_stray hr ht hstray

/-! ## Entries -/

theorem result_of_stray (known : List Text) (hline : ∀ t ∈ line, ¬ t.EndsLine) (he : e.EndsLine)
    (ht : t ∈ line) (hstray : t.kind = .stray) (rest : List Token) :
    ∃ error, (read known (line ++ e :: rest)).result = .error error := by
  obtain ⟨result, hall⟩ : Reading.Keeps (read known) line e := keeps_read hline he
  rw [(hall rest).1, ← (hall []).1]
  cases h : (read known (line ++ [e])).result with
  | error error => exact ⟨error, rfl⟩
  | ok s =>
    -- what is left of the line alone is at most its end
    have hleft : (read known (line ++ [e])).rest ⊆ [e] := by
      have hleaves := (hall []).2
      rw [LeavesLine] at hleaves
      split at hleaves
      · rw [hleaves]
        exact List.nil_subset _
      · rcases hleaves with hleaves | hleaves
        · rw [hleaves, skipLine]
          exact List.nil_subset _
        · rw [hleaves]
          exact List.Subset.refl _
    have hmem := hleft (mem_rest_of_stray h (List.mem_append_left _ ht) hstray)
    exact absurd he (List.mem_singleton.mp hmem ▸ hline t ht)

/-- The end of a line alone is followed by the end of the file. -/
theorem closed_all (line : LogicalLine) (he : line.ending.EndsLine) :
    ∃ rest, Cursor.closed line.all = line.tokens ++ line.ending :: rest ∧
      (line.ending.kind = .newline → ∃ p, rest = [.eof p]) ∧
      (line.ending.kind = .endOfFile → rest = []) := by
  rw [LogicalLine.all, Cursor.closed, List.getLast?_concat]
  dsimp only
  rcases he with he | he
  · refine ⟨[.eof line.ending.position], ?_, fun _ => ⟨_, rfl⟩, by simp [he]⟩
    rw [if_neg (by simp [he]), Cursor.finalOf, List.getLast?_concat]
    dsimp only
    rw [if_neg (by simp [he]), List.append_assoc]
    rfl
  · exact ⟨[], by rw [if_pos he], by simp [he], fun _ => rfl⟩

/-- Each line has the entry that is read from it alone, with the categories of the entries before
it. -/
inductive ReadsLines : List Text → List LogicalLine → List Entry → Prop where
  | nil {known : List Text} : ReadsLines known [] []
  | cons {known : List Text} {line : LogicalLine} {lines : List LogicalLine} {entry : Entry}
    {entries : List Entry} (h : readFrom known (Cursor.closed line.all) = [entry])
    (hrest : ReadsLines (declaredCategory entry.result ++ known) lines entries) :
    ReadsLines known (line :: lines) (entry :: entries)

/-- A file whose first line has begun with `run` is read line by line. -/
theorem readsLines_linesAfter (hrun : ∀ t ∈ run, ¬ t.EndsLine)
    (hts : ∀ t ∈ ts, t.kind ≠ .endOfFile) (he : e.kind = .endOfFile) :
    ReadsLines known (LogicalLine.linesAfter run (ts ++ [e]))
      (readFrom known (run ++ (ts ++ [e]))) := by
  induction ts generalizing known run with
  | nil =>
    rw [List.nil_append, LogicalLine.linesAfter, if_pos (.inr he)]
    split
    · rename_i hnil
      rw [hnil, List.nil_append, readFrom_endOfFile he]
      exact .nil
    · rename_i hne
      obtain ⟨entry, hentry⟩ := readFrom_lastLine known hrun he hne
      rw [hentry]
      refine .cons ?_ .nil
      obtain ⟨rest, hclosed, -, hrest⟩ := closed_all ⟨run, e⟩ (.inr he)
      rw [hclosed, hrest he, hentry]
  | cons t ts ih =>
    rw [List.forall_mem_cons] at hts
    rw [List.cons_append, LogicalLine.linesAfter]
    by_cases ht : t.kind = .newline
    · rw [if_pos (.inl ht)]
      split
      · rename_i hnil
        rw [hnil, List.nil_append, readFrom_newline ht]
        exact ih (List.forall_mem_nil _) hts.2
      · rename_i hne
        obtain ⟨entry, hentry⟩ := readFrom_line known hrun ht hne
        rw [hentry]
        refine .cons ?_ (ih (List.forall_mem_nil _) hts.2)
        obtain ⟨rest, hclosed, hrest, -⟩ := closed_all ⟨run, t⟩ (.inl ht)
        obtain ⟨p, rfl⟩ := hrest ht
        rw [hclosed, hentry, readFrom_endOfFile rfl]
    · have ht' : ¬ t.EndsLine := fun h => h.elim ht hts.1
      have hsplit : run ++ t :: (ts ++ [e]) = run ++ [t] ++ (ts ++ [e]) := List.append_cons ..
      rw [if_neg ht', hsplit]
      refine ih ?_ hts.2
      rw [List.forall_mem_append, List.forall_mem_singleton]
      exact ⟨hrun, ht'⟩

variable {lines : List LogicalLine} {entries : List Entry}

theorem ReadsLines.length_eq (h : ReadsLines known lines entries) :
    entries.length = lines.length := by
  induction h with
  | nil => rfl
  | cons h hrest ih => rw [List.length_cons, List.length_cons, ih]

theorem ReadsLines.getElem? (h : ReadsLines known lines entries) {k : Nat} {line : LogicalLine}
    (hk : lines[k]? = some line) : ∃ entry, entries[k]? = some entry ∧
      readFrom (knownAfter known (entries.take k)) (Cursor.closed line.all) = [entry] := by
  induction h generalizing k with
  | nil => cases hk
  | cons h hrest ih =>
    cases k with
    | zero =>
      cases hk
      exact ⟨_, rfl, h⟩
    | succ k => exact ih hk

/-- The entry of a line stands where the line begins, and is read from its tokens. -/
theorem entry_of_line {line : LogicalLine} {entry : Entry} (hrun : LogicalLine.IsRun ts line)
    (h : readFrom known (Cursor.closed line.all) = [entry]) :
    ∃ first ∈ line.tokens.head?, entry = ⟨first.position.line, (read known line.all).result⟩ := by
  obtain ⟨rest, hclosed, -⟩ := closed_all line hrun.endsLine
  obtain ⟨result, hall⟩ : Reading.Keeps (read known) line.tokens line.ending :=
    keeps_read hrun.inLine hrun.endsLine
  have hresult := (hall rest).1.trans (hall []).1.symm
  obtain ⟨first, tokens, hline⟩ := List.exists_cons_of_ne_nil hrun.tokens_ne_nil
  have hfirst := hrun.inLine first (hline ▸ List.mem_cons_self ..)
  rw [hclosed, hline, List.cons_append, readFrom_cons known hfirst] at h
  rw [hline, List.cons_append] at hresult
  refine ⟨first, by rw [hline]; rfl, ?_⟩
  rw [← (List.cons.inj h).1, hresult, LogicalLine.all, hline, List.cons_append]

/-- The entry of a line with a stray character is an error. -/
theorem error_of_stray {line : LogicalLine} {entry : Entry} (hrun : LogicalLine.IsRun ts line)
    (h : readFrom known (Cursor.closed line.all) = [entry]) (ht : t ∈ line.tokens)
    (hstray : t.kind = .stray) : ∃ error, entry.result = .error error := by
  obtain ⟨first, -, rfl⟩ := entry_of_line hrun h
  exact result_of_stray known hrun.inLine hrun.endsLine ht hstray []

/-- A file is read line by line. -/
theorem readsLines_readAll (source : Text) :
    ReadsLines [] (LogicalLine.linesOf (Token.tokenize source)) (readAll source) := by
  rw [readAll, Token.tokenize, Token.tokenizeFrom_eq]
  exact readsLines_linesAfter (List.forall_mem_nil _)
    (fun _ => Token.kind_ne_endOfFile_of_mem_lexed) rfl

/-- A file has one entry for each of its logical lines, in order: what is read from that line alone
with the categories of the entries before it, and an error if the line has a stray character. -/
theorem readAll_lines (source : Text) :
    (readAll source).length = (LogicalLine.linesOf (Token.tokenize source)).length ∧
      ∀ k line, (LogicalLine.linesOf (Token.tokenize source))[k]? = some line →
        ∃ entry, (readAll source)[k]? = some entry ∧
          readFrom (knownAfter [] ((readAll source).take k)) (Cursor.closed line.all) = [entry] ∧
          ((∃ t ∈ line.tokens, t.kind = .stray) → ∃ error, entry.result = .error error) := by
  have hlines := readsLines_readAll source
  refine ⟨hlines.length_eq, fun k line hk => ?_⟩
  obtain ⟨entry, hentry, hread⟩ := hlines.getElem? hk
  refine ⟨entry, hentry, hread, ?_⟩
  rintro ⟨t, ht, hstray⟩
  exact error_of_stray (LogicalLine.mem_linesOf_iff.mp (List.mem_of_getElem? hk)) hread ht hstray

/-- A category, a blank line, a line with a stray equals sign, and a rule at the end of the file. -/
def strayLine : Text := "V \x7b a \x7d\n\nV = b\nV => b / _".toList

/-- Its first logical line, the category. -/
def categoryTokens : LogicalLine where
  tokens := [⟨.word, ['V'], ⟨1, 1⟩⟩, ⟨.openBrace, ['\x7b'], ⟨1, 3⟩⟩, ⟨.word, ['a'], ⟨1, 5⟩⟩,
    ⟨.closeBrace, ['\x7d'], ⟨1, 7⟩⟩]
  ending := ⟨.newline, ['\n'], ⟨1, 8⟩⟩

/-- Its second logical line. -/
def strayTokens : LogicalLine where
  tokens := [⟨.word, ['V'], ⟨3, 1⟩⟩, ⟨.stray, ['='], ⟨3, 3⟩⟩, ⟨.word, ['b'], ⟨3, 5⟩⟩]
  ending := ⟨.newline, ['\n'], ⟨3, 6⟩⟩

/-- Its third logical line, the rule. -/
def ruleTokens : LogicalLine where
  tokens := [⟨.word, ['V'], ⟨4, 1⟩⟩, ⟨.arrow, ['=', '>'], ⟨4, 3⟩⟩, ⟨.word, ['b'], ⟨4, 6⟩⟩,
    ⟨.slash, ['/'], ⟨4, 8⟩⟩, ⟨.placeholder, ['_'], ⟨4, 10⟩⟩]
  ending := ⟨.endOfFile, [], ⟨4, 11⟩⟩

/-- The rule turns the members of `V` to `b`, since the name is known from the first line. -/
def strayRule : Rule where
  target := [.set (.category ['V'])]
  result := [.utterance ['b']]
  environment := [.placeholder]

theorem strayLine_readAll_lines :
    LogicalLine.linesOf (Token.tokenize strayLine) = [categoryTokens, strayTokens, ruleTokens] ∧
      (readAll strayLine).length = 3 ∧
      readFrom [] (Cursor.closed categoryTokens.all) =
        [⟨1, .ok (.category ((Category.new ['V']).addMember ['a']))⟩] ∧
      (∃ error, readFrom [['V']] (Cursor.closed strayTokens.all) = [⟨3, .error error⟩]) ∧
      readFrom [['V']] (Cursor.closed ruleTokens.all) =
        [⟨4, .ok (.rule strayRule ⟨4, 1⟩)⟩] := by
  have hlines : LogicalLine.linesOf (Token.tokenize strayLine) =
      [categoryTokens, strayTokens, ruleTokens] := by cbv
  obtain ⟨result, hall⟩ : ∃ result, readAll strayLine =
      [⟨1, .ok (.category ((Category.new ['V']).addMember ['a']))⟩, ⟨3, result⟩,
        ⟨4, .ok (.rule strayRule ⟨4, 1⟩)⟩] := ⟨_, by cbv⟩
  obtain ⟨hcount, hentries⟩ := readAll_lines strayLine
  rw [hall] at hcount hentries
  rw [hlines] at hentries
  obtain ⟨_, ⟨⟩, hcategory, -⟩ := hentries 0 categoryTokens rfl
  obtain ⟨_, ⟨⟩, hstray, herror⟩ := hentries 1 strayTokens rfl
  obtain ⟨_, ⟨⟩, hrule, -⟩ := hentries 2 ruleTokens rfl
  obtain ⟨error, rfl⟩ : ∃ error, result = .error error :=
    herror ⟨⟨.stray, ['='], ⟨3, 3⟩⟩, by decide, rfl⟩
  exact ⟨hlines, by rw [hall]; rfl, hcategory, ⟨error, hstray⟩, hrule⟩

end Statement

end SoundChange
