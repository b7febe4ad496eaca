import SoundChange.Proofs.Statement.Move

/-!
# Bad lines

What a bad line costs. A line that is no statement on its own is none in a file either, whatever
categories are known there (`Statement.read_error`), and what follows it is read as if it stood
alone, further down, with the categories from before the line. This is so if and only if the line
closes every brace that it opens (`Statement.readAll_badLine_iff`): within braces a line feed is no
token, so an open brace makes the lines below a part of the bad one.
-/

namespace SoundChange

variable {α : Type} {k : Nat} {more known known' : List Text} {p q : Position} {t e e' : Token}
  {line rest rest' : List Token}

/-! ## Errors stay errors -/

theorem Reading.declared_error {production : Production} {a a' : α}
    (hline : ∀ t ∈ line, ¬ t.EndsLine) (he : e.EndsLine)
    (h : ∃ error, (declared production a (line ++ e :: rest)).result = .error error) :
    ∃ error, (declared production a' (line ++ e' :: rest')).result = .error error := by
  cases line with
  | nil =>
    have hend : e.kind = .newline ∨ e.kind = .endOfFile := he
    obtain ⟨error, h⟩ := h
    rw [List.nil_append, declared, if_pos hend] at h
    cases h
  | cons t line =>
    have hin : ¬ (t.kind = .newline ∨ t.kind = .endOfFile) := hline t (List.mem_cons_self ..)
    rw [List.cons_append, declared, if_neg hin]
    exact ⟨_, rfl⟩

theorem Category.readMembers_error (hline : ∀ t ∈ line, ¬ t.EndsLine) (he : e.EndsLine)
    (he' : e'.EndsLine) {c c' : Category} {b : Option Bracket}
    (h : ∃ error, (c.readMembers known b (line ++ e :: rest)).result = .error error) :
    ∃ error, (c'.readMembers known' b (line ++ e' :: rest')).result = .error error := by
  induction line generalizing c c' b with
  | nil =>
    cases b with
    | some b =>
      obtain ⟨error, herror⟩ := b.step_of_endsLine he'
      rw [List.nil_append, readMembers, herror]
      exact ⟨error, rfl⟩
    | none =>
      rw [List.nil_append, readMembers]
      rcases he' with hk | hk <;> rw [hk] <;> exact ⟨_, rfl⟩
  | cons t line ih =>
    rw [List.forall_mem_cons] at hline
    rw [List.cons_append, readMembers.eq_def] at h ⊢
    cases b with
    | some b =>
      dsimp only at h ⊢
      cases hstep : b.step t with
      | more b' =>
        rw [hstep] at h
        exact ih hline.2 h
      | done element =>
        rw [hstep] at h
        cases element with
        | set ref => exact ih hline.2 h
        | _ => exact ⟨_, rfl⟩
      | failed error => exact ⟨_, rfl⟩
    | none =>
      dsimp only at h ⊢
      cases hk : t.kind with
      | word =>
        rw [hk] at h
        dsimp only at h ⊢
        split at h
        · split
          · exact ih hline.2 h
          · exact ih hline.2 h
        · split
          · exact ih hline.2 h
          · exact ih hline.2 h
      | identifier =>
        rw [hk] at h
        exact ih hline.2 h
      | openBracket =>
        rw [hk] at h
        exact ih hline.2 h
      | comma =>
        rw [hk] at h
        exact ih hline.2 h
      | closeBrace =>
        rw [hk] at h
        exact Reading.declared_error hline.2 he h
      | _ => exact ⟨_, rfl⟩

theorem FeatureSet.readMembers_error (hline : ∀ t ∈ line, ¬ t.EndsLine) (he : e.EndsLine)
    (he' : e'.EndsLine) {f : FeatureSet} {slot : Slot} (hslot : ∀ b, slot = .base b → line ≠ [])
    (h : ∃ error, (f.readMembers slot (line ++ e :: rest)).result = .error error) :
    ∃ error, (f.readMembers slot (line ++ e' :: rest')).result = .error error := by
  induction line generalizing f slot with
  | nil =>
    cases slot with
    | base b => exact absurd rfl (hslot b rfl)
    | arrow b =>
      rw [List.nil_append, readMembers, if_neg (by rcases he' with hk | hk <;> simp [hk])]
      exact ⟨_, rfl⟩
    | between =>
      rw [List.nil_append, readMembers]
      rcases he' with hk | hk <;> rw [hk] <;> exact ⟨_, rfl⟩
  | cons t line ih =>
    rw [List.forall_mem_cons] at hline
    cases slot with
    | base b =>
      rw [List.cons_append, readMembers] at h ⊢
      exact ih hline.2 (by simp) h
    | arrow b =>
      rw [List.cons_append, readMembers] at h ⊢
      split
      · rename_i hk
        rw [if_pos hk] at h
        cases hpair : f.addPair b.text t.text with
        | ok f' =>
          rw [hpair] at h
          exact ih hline.2 (by simp) h
        | error c => exact ⟨_, rfl⟩
      · exact ⟨_, rfl⟩
    | between =>
      rw [List.cons_append, readMembers] at h ⊢
      cases hk : t.kind with
      | word =>
        -- no end of a line is an arrow
        have hahead {e : Token} {rest : List Token} (he : e.EndsLine) :
            (line ++ e :: rest).head?.any (·.kind = .arrow) = line.head?.any (·.kind = .arrow) := by
          cases line with
          | nil => rcases he with hk | hk <;> simp [hk]
          | cons => rfl
        rw [hk] at h
        dsimp only at h ⊢
        rw [hahead he] at h
        rw [hahead he']
        split
        · rename_i harrow
          rw [if_pos harrow] at h
          refine ih hline.2 (fun _ _ => ?_) h
          rintro rfl
          cases harrow
        · rename_i harrow
          rw [if_neg harrow] at h
          exact ih hline.2 (by simp) h
      | comma =>
        rw [hk] at h
        exact ih hline.2 (by simp) h
      | closeBrace =>
        rw [hk] at h
        exact Reading.declared_error hline.2 he h
      | _ => exact ⟨_, rfl⟩

namespace Draft

variable {d d' : Draft}

/-- A rule ends at the end of a line if it is in its environment, outside brackets and groups. -/
theorem step_endsLine (known : List Text) (he : e.EndsLine) (d : Draft) :
    (∃ error, d.step known e = .failed error) ∨
      d.bracket = none ∧ d.groups = [] ∧ d.part = .environment := by
  cases hb : d.bracket with
  | some b =>
    obtain ⟨error, herror⟩ := b.step_of_endsLine he
    exact .inl ⟨error, (Turn.refFailed hb herror).eq_step⟩
  | none =>
    by_cases hfinish : d.groups = [] ∧ d.part = .environment
    · exact .inr ⟨rfl, hfinish⟩
    · refine .inl ⟨_, (Turn.unexpected hb ?_ ?_ ?_ ?_ ?_).eq_step⟩
      · rcases he with hk | hk <;> simp [hk]
      · intro hk hg
        have hpart : d.part ≠ .environment := fun hpart => hfinish ⟨hg, hpart⟩
        rcases he with he | he <;> cases hd : d.part <;> simp_all [endsPart]
      · rcases he with hk | hk <;> rw [RulePart.single?, hk]
      · rcases he with hk | hk <;> simp [hk]
      · rcases he with hk | hk <;> simp [hk]

/-- Where more categories are known, a rule still fails the checks that it fails. -/
theorem Moves.complete_error (h : Moves more k d d') (herror : ∃ error, d.complete p = .error error)
    (q : Position) : ∃ error, d'.complete q = .error error := by
  cases hcomplete : d'.complete q with
  | error error => exact ⟨error, rfl⟩
  | ok placed =>
    obtain ⟨hresult, htarget, hcount, hboundary, -⟩ := complete_eq_ok hcomplete
    have hfirst : d'.elements.map (·.1) = (d.elements.map (·.1)).map (Element.recognize more) := by
      rw [h.elements, List.map_map, List.map_map]
      rfl
    have hmem {e : Element} (he : e ∈ d.result) : e.recognize more ∈ d'.result :=
      h.result ▸ List.mem_map_of_mem he
    have hplain : ∀ e ∈ d.result,
        (∀ refs, e ≠ .compound refs) ∧ ∀ name, e ≠ .set (.category name) := by
      refine fun e he => ⟨?_, ?_⟩
      · rintro refs rfl
        exact (hresult _ (hmem he)).1 refs rfl
      · rintro name rfl
        exact (hresult _ (hmem he)).2 name rfl
    have hne : d.target ≠ [] := fun hnil => htarget (by rw [h.target, hnil]; rfl)
    have hone : (d.elements.map (·.1)).countP Element.isPlaceholder = 1 := by
      rw [hfirst, List.countP_map] at hcount
      rw [← hcount]
      exact List.countP_congr fun e _ => by simp
    have hends : d.elements.tail.dropLast.find? (·.1.isBoundary) = none := by
      rw [h.elements, ← List.map_tail, ← List.map_dropLast, List.find?_map,
        Option.map_eq_none_iff] at hboundary
      rw [← hboundary]
      congr 1
      funext x
      exact (Element.isBoundary_recognize more x.1).symm
    obtain ⟨error, herror⟩ := herror
    rw [complete_of_checks hplain hne hone hends] at herror
    cases herror

theorem Moves.read_error (h : Moves more 0 d d') (hline : ∀ t ∈ line, ¬ t.EndsLine)
    (he : e.EndsLine) (he' : e'.EndsLine)
    (herror : ∃ error, (d.read known (line ++ e :: rest)).result = .error error) :
    ∃ error, (d'.read (more ++ known) (line ++ e' :: rest')).result = .error error := by
  induction line generalizing d d' with
  | nil =>
    rw [List.nil_append, Draft.read] at herror ⊢
    rcases d'.step_endsLine (more ++ known) he' with ⟨error, hstep⟩ | ⟨hb', hg', hpart'⟩
    · rw [hstep]
      exact ⟨error, rfl⟩
    · have hb : d.bracket = none := Option.map_eq_none_iff.mp (h.bracket.symm.trans hb')
      have hg : d.groups = [] := List.map_eq_nil_iff.mp (h.groups.symm.trans hg')
      rw [(Turn.finish hb hg (h.part ▸ hpart') he).eq_step] at herror
      rw [(Turn.finish hb' hg' hpart' he').eq_step]
      exact h.complete_error herror _
  | cons t line ih =>
    rw [List.forall_mem_cons] at hline
    have hfollows : Follows more 0 (d.step known t) (d'.step (more ++ known) t) := h.step known t
    rw [List.cons_append, Draft.read] at herror ⊢
    generalize hstep : d.step known t = r at hfollows herror
    generalize d'.step (more ++ known) t = r' at hfollows
    cases hfollows with
    | more h => exact ih h hline.2 herror
    | failed error => exact ⟨_, rfl⟩
    | done h hpart p => exact absurd (endsLine_of_step_done hstep) hline.1

end Draft

namespace Statement

/-- A line that is no statement is none either where it ends in another way and more categories are
known. -/
theorem read_error (hline : ∀ t ∈ line, ¬ t.EndsLine) (he : e.EndsLine) (he' : e'.EndsLine)
    (h : ∃ error, (read known (line ++ e :: rest)).result = .error error) :
    ∃ error, (read (more ++ known) (line ++ e' :: rest')).result = .error error := by
  have hmap {β : Type} {x : Except RuleError β} {f : β → Statement} :
      (∃ error, x.map f = .error error) ↔ ∃ error, x = .error error := by
    cases x <;> simp [Except.map]
  rw [read, form_append line he] at h
  rw [read, form_append line he']
  cases hform : form line with
  | category name =>
    obtain ⟨a, b, line, rfl, -⟩ := form_eq_category hform
    simp only [List.forall_mem_cons] at hline
    rw [hform] at h
    exact hmap.mpr (Category.readMembers_error hline.2.2 he he' (hmap.mp h))
  | featureSet name =>
    obtain ⟨a, b, c, d, line, rfl, -⟩ := form_eq_featureSet hform
    simp only [List.forall_mem_cons] at hline
    rw [hform] at h
    exact hmap.mpr (FeatureSet.readMembers_error hline.2.2.2.2 he he' (by simp) (hmap.mp h))
  | rule =>
    rw [hform] at h
    exact hmap.mpr ((Draft.moves_empty more 0).read_error hline he he' (hmap.mp h))

/-- A line that is no statement costs no other. -/
theorem readFrom_badLine {n : Nat} {error : RuleError} (hline : ∀ t ∈ line, ¬ t.EndsLine)
    (hne : line ≠ []) (he : e.EndsLine) (he' : e'.kind = .newline)
    (h : readFrom [] (line ++ [e]) = [⟨n, .error error⟩]) (known : List Text) :
    ∃ error', ∀ rest, readFrom known (line ++ e' :: rest) =
      ⟨n, .error error'⟩ :: readFrom known rest := by
  obtain ⟨entry, hentry⟩ := readFrom_line known hline he' hne
  obtain ⟨first, tokens, rfl⟩ := List.exists_cons_of_ne_nil hne
  have hfirst := hline first (List.mem_cons_self ..)
  -- the first entry is what is read from the line
  have hhead (known : List Text) (ts : List Token) (entry : Entry) (entries : List Entry)
      (h : readFrom known (first :: ts) = entry :: entries) :
      entry = ⟨first.position.line, (read known (first :: ts)).result⟩ := by
    rw [readFrom_cons known hfirst] at h
    exact (List.cons.inj h).1.symm
  have halone := hhead _ _ _ _ h
  obtain ⟨error', herror'⟩ : ∃ error', entry.result = .error error' := by
    rw [hhead _ _ _ _ (hentry [])]
    have hread : ∃ error,
        (read (known ++ []) (first :: tokens ++ e' :: [])).result = .error error :=
      read_error hline he (.inl he') ⟨error, (congrArg Entry.result halone).symm⟩
    rwa [List.append_nil] at hread
  have hplace : entry.line = n :=
    (congrArg Entry.line (hhead _ _ _ _ (hentry []))).trans (congrArg Entry.line halone).symm
  obtain ⟨place, result⟩ := entry
  subst herror' hplace
  exact ⟨error', hentry⟩

/-! ## Files with a bad line -/

open Token (tokenize tokenizeFrom lexed depthAfter)

variable {before bad after x : Text} {n : Nat} {error : RuleError}

theorem start_after (hx : x.EndsLine) :
    Position.start.after x = Position.start.down (x.count '\n') := by
  rcases hx.eq_concat with rfl | ⟨z, rfl⟩
  · rfl
  · rw [Position.after_concat_newline]
    rfl

/-- A line that closes its braces is no statement in a file if it is none on its own, and the others
are read as if it was not there. -/
theorem readAll_badLine (hbefore : before.WholeLines) (hbad : '\n' ∉ bad)
    (hclosed : depthAfter 0 bad = 0) (h : readAll bad = [⟨n, .error error⟩]) (after : Text) :
    ∃ error', readAll (before ++ bad ++ '\n' :: after) =
      readAll before ++ ⟨n + before.count '\n', .error error'⟩ ::
        (readFrom (knownAfter [] (readAll before)) (tokenize after)).map
          (Entry.down (before.count '\n' + 1)) := by
  have hends : (bad ++ ['\n']).EndsLine := .inr List.getLast?_concat
  have hwhole : (bad ++ ['\n']).WholeLines := by
    refine ⟨hends, ?_⟩
    rw [Token.depthAfter_append_newline, hclosed, Token.depthAfter_newline, depthAfter]
  have htokens : lexed 0 .start (bad ++ ['\n']) =
      lexed 0 .start bad ++ [⟨.newline, ['\n'], Position.start.after bad⟩] := by
    rw [Token.lexed_concat_newline, hclosed, Token.lexed_newline]
  have hline : ∀ t ∈ lexed 0 .start bad, ¬ t.EndsLine := fun t ht =>
    not_endsLine_of_mem_lexed ht (Token.kind_ne_newline_of_mem_lexed hbad ht)
  rw [readAll, tokenize, Token.tokenizeFrom_eq] at h
  have hne : lexed 0 .start bad ≠ [] := by
    intro hnil
    rw [hnil, List.nil_append, readFrom_endOfFile rfl] at h
    cases h
  have hnewline : (⟨.newline, ['\n'], Position.start.after bad⟩ : Token).kind = .newline := rfl
  obtain ⟨known, hknown⟩ : ∃ known, knownAfter [] (readAll before) = known := ⟨_, rfl⟩
  obtain ⟨error', herror'⟩ := readFrom_badLine hline hne (.inr rfl) hnewline h known
  have hentry : readFrom known (tokenizeFrom 0 .start (bad ++ ['\n'])) = [⟨n, .error error'⟩] := by
    rw [readFrom_lexed hwhole, htokens, herror', readFrom]
  have hplace : (Position.start.down (before.count '\n')).after (bad ++ ['\n']) =
      Position.start.down (before.count '\n' + 1) := by
    rw [Position.after_down, start_after hends, List.count_append, List.count_eq_zero.mpr hbad,
      Position.down_down, List.count_singleton_self, Nat.zero_add, Nat.add_comm]
  have hsplit : before ++ bad ++ '\n' :: after = before ++ ((bad ++ ['\n']) ++ after) := by
    simp only [List.append_assoc, List.singleton_append]
  have hrest : readAll (before ++ bad ++ '\n' :: after) = readAll before ++ readFrom known
      (tokenizeFrom 0 (Position.start.down (before.count '\n')) ((bad ++ ['\n']) ++ after)) := by
    rw [hsplit, ← start_after hbefore.endsLine, ← hknown]
    exact readFrom_text hbefore [] .start _
  refine ⟨error'.down (before.count '\n'), ?_⟩
  rw [hrest, readFrom_text hwhole, readFrom_down, hentry, hplace, readFrom_down, hknown]
  rfl

theorem tokenizeFrom_slash (depth : Nat) (p : Position) :
    tokenizeFrom depth p ['/'] = [⟨.slash, ['/'], p⟩, .eof (p.next '/')] := by
  have hread : Lexeme.read '/' [] = ⟨some .slash, ['/'], ['/'], []⟩ := by decide
  rw [Token.tokenizeFrom_cons, hread, tokenizeFrom]
  rfl

theorem not_endsLine_slash (p : Position) : ¬ (⟨.slash, ['/'], p⟩ : Token).EndsLine := by
  rintro (h | h) <;> cases h

/-- What follows a line that leaves a brace open belongs to that line. -/
theorem readAll_openBrace (hbefore : before.WholeLines) (hbad : '\n' ∉ bad)
    (hopen : depthAfter 0 bad ≠ 0) : ∃ entry,
      readAll (before ++ bad ++ '\n' :: ['/']) = readAll before ++ [entry] := by
  obtain ⟨p, hp⟩ : ∃ p, Position.start.after before = p := ⟨_, rfl⟩
  obtain ⟨q, htokens⟩ : ∃ q, tokenizeFrom 0 p (bad ++ '\n' :: ['/']) =
      lexed 0 p bad ++ [⟨.slash, ['/'], q⟩] ++ [.eof (q.next '/')] := by
    refine ⟨(p.after bad).after ['\n'], ?_⟩
    rw [Token.tokenizeFrom_append_newline, Token.tokenizeFrom_newline,
      Token.lexed_newline_open hopen, tokenizeFrom_slash, List.append_assoc]
    rfl
  have hline : ∀ t ∈ lexed 0 p bad ++ [⟨.slash, ['/'], q⟩], ¬ t.EndsLine := by
    rw [List.forall_mem_append, List.forall_mem_singleton]
    refine ⟨fun t ht => ?_, not_endsLine_slash q⟩
    exact not_endsLine_of_mem_lexed ht (Token.kind_ne_newline_of_mem_lexed hbad ht)
  have heof : (Token.eof (q.next '/')).kind = .endOfFile := rfl
  obtain ⟨entry, hentry⟩ := readFrom_lastLine (knownAfter [] (readAll before)) hline heof
    (List.append_ne_nil_of_right_ne_nil _ (List.cons_ne_nil _ _))
  refine ⟨entry, ?_⟩
  rw [readAll, tokenize, List.append_assoc, readFrom_text hbefore, hp, htokens]
  exact congrArg _ hentry

/-- A line that is no statement costs no other, whatever follows it, if and only if it closes the
braces that it opens. -/
theorem readAll_badLine_iff (hbefore : before.WholeLines) (hbad : '\n' ∉ bad)
    (h : readAll bad = [⟨n, .error error⟩]) :
    (∀ after, ∃ error', readAll (before ++ bad ++ '\n' :: after) =
      readAll before ++ ⟨n + before.count '\n', .error error'⟩ ::
        (readFrom (knownAfter [] (readAll before)) (tokenize after)).map
          (Entry.down (before.count '\n' + 1))) ↔ depthAfter 0 bad = 0 := by
  refine ⟨fun hall => ?_, fun hclosed => readAll_badLine hbefore hbad hclosed h⟩
  by_contra hopen
  obtain ⟨error', hcontained⟩ := hall ['/']
  obtain ⟨entry, hentry⟩ := readAll_openBrace hbefore hbad hopen
  -- a slash alone is a line with an entry of its own
  have hline : ∀ t ∈ [(⟨.slash, ['/'], .start⟩ : Token)], ¬ t.EndsLine :=
    List.forall_mem_singleton.mpr (not_endsLine_slash .start)
  have heof : (Token.eof (Position.start.next '/')).kind = .endOfFile := rfl
  obtain ⟨slash, hslash⟩ := readFrom_lastLine (knownAfter [] (readAll before)) hline heof
    (List.cons_ne_nil _ _)
  have htokens : tokenize ['/'] = [⟨.slash, ['/'], .start⟩] ++ [.eof (Position.start.next '/')] :=
    tokenizeFrom_slash 0 .start
  rw [hentry, htokens, hslash] at hcontained
  cases List.append_cancel_left hcontained

/-- A category, and the end of its line. -/
def vowelLine : Text := "V \x7b a \x7d\n".toList

/-- A brace out of place that is closed again. -/
def closedBrace : Text := "a => \x7b \x7d / _".toList

/-- A brace out of place that stays open. -/
def openBrace : Text := "a => \x7b / _".toList

/-- Its error, alone or not. -/
def braceError : RuleError :=
  .unexpected .result [.word, .openBracket, .slash] ['\x7b'] ⟨1, 6⟩

theorem closedBrace_costs_no_line : vowelLine.WholeLines ∧ '\n' ∉ closedBrace ∧
    readAll closedBrace = [⟨1, .error braceError⟩] ∧ depthAfter 0 closedBrace = 0 ∧
    ∃ error', readAll (vowelLine ++ closedBrace ++ '\n' :: "V => b / _".toList) =
      readAll vowelLine ++ ⟨1 + vowelLine.count '\n', .error error'⟩ ::
        (readFrom (knownAfter [] (readAll vowelLine)) (tokenize "V => b / _".toList)).map
          (Entry.down (vowelLine.count '\n' + 1)) := by
  have hbefore : vowelLine.WholeLines := ⟨.inr rfl, by cbv⟩
  have hbad : '\n' ∉ closedBrace := by decide
  have hread : readAll closedBrace = [⟨1, .error braceError⟩] := by cbv
  have hclosed : depthAfter 0 closedBrace = 0 := by cbv
  exact ⟨hbefore, hbad, hread, hclosed,
    (readAll_badLine_iff hbefore hbad hread).mpr hclosed "V => b / _".toList⟩

theorem openBrace_costs_next_line : Text.WholeLines [] ∧ '\n' ∉ openBrace ∧
    readAll openBrace = [⟨1, .error braceError⟩] ∧
    ¬ ∃ error', readAll ([] ++ openBrace ++ '\n' :: "b => c / _\n".toList) =
      readAll [] ++ ⟨1, .error error'⟩ ::
        (readFrom (knownAfter [] (readAll [])) (tokenize "b => c / _\n".toList)).map
          (Entry.down 1) := by
  refine ⟨Text.wholeLines_nil, by decide, by cbv, ?_⟩
  rintro ⟨error', h⟩
  have hone : (readAll ([] ++ openBrace ++ '\n' :: "b => c / _\n".toList)).length = 1 := by cbv
  have hnext : (readFrom (knownAfter [] (readAll []))
      (tokenize "b => c / _\n".toList)).length = 1 := by cbv
  rw [h, List.length_append, List.length_cons, List.length_map, hnext] at hone
  omega

end Statement

end SoundChange
