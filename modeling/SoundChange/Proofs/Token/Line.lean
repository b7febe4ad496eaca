import SoundChange.Token.Lexer

/-!
# Tokens line by line

A line feed belongs to no other lexeme (`Lexeme.read_append_newline`), so a text that ends in one is
cut into the same tokens whatever follows it (`Token.tokenizeFrom_append`): of the text before, the
rest of a file depends on nothing but where it ends and how many braces are open there.
-/

namespace SoundChange

variable {depth : Nat} {p q : Position} {c : Char} {cs x y : Text} {t : Token}

/-! ## Places -/

namespace Position

theorem after_append (p : Position) (x y : Text) : p.after (x ++ y) = (p.after x).after y :=
  List.foldl_append

theorem line_after (p : Position) (x : Text) : (p.after x).line = p.line + x.count '\n' := by
  induction x generalizing p with
  | nil => rfl
  | cons c cs ih =>
    have hcons : p.after (c :: cs) = (p.next c).after cs := rfl
    rw [hcons, ih, List.count_cons, next]
    by_cases hc : c = '\n'
    · simp [hc]
      omega
    · simp [hc]

/-- A line feed is followed by the first place of the next line. -/
theorem after_concat_newline (p : Position) (x : Text) :
    p.after (x ++ ['\n']) = ⟨p.line + (x ++ ['\n']).count '\n', 1⟩ := by
  have hline := line_after p (x ++ ['\n'])
  have hcolumn : (p.after (x ++ ['\n'])).column = 1 := by
    rw [after_append]
    rfl
  rw [← hline, ← hcolumn]

end Position

/-! ## Lexemes before a line feed -/

namespace Lexeme

open Text (classify isSegment isIdentifier)

theorem takeWhile_append_newline {f : Char → Bool} (hf : f '\n' = false) (cs y : Text) :
    (cs ++ '\n' :: y).takeWhile f = cs.takeWhile f := by
  induction cs with
  | nil => rw [List.nil_append, List.takeWhile_cons_of_neg (by simp [hf]), List.takeWhile_nil]
  | cons c cs ih => rw [List.cons_append, List.takeWhile_cons, List.takeWhile_cons, ih]

theorem dropWhile_append_newline {f : Char → Bool} (hf : f '\n' = false) (cs y : Text) :
    (cs ++ '\n' :: y).dropWhile f = cs.dropWhile f ++ '\n' :: y := by
  induction cs with
  | nil => rw [List.nil_append, List.dropWhile_cons_of_neg (by simp [hf]), List.dropWhile_nil]; rfl
  | cons c cs ih =>
    rw [List.cons_append, List.dropWhile_cons, List.dropWhile_cons, ih]
    split <;> rfl

theorem splitName_append_newline (cs y : Text) :
    splitName (cs ++ '\n' :: y) = ((splitName cs).1, (splitName cs).2 ++ '\n' :: y) := by
  induction cs with
  | nil =>
    have hstop : splitName ('\n' :: y) = ([], '\n' :: y) := by
      rw [splitName, show isIdentifier '\n' = false by decide]
      rfl
    exact hstop
  | cons c cs ih =>
    have hhead : (cs ++ '\n' :: y).head?.any Char.isAlphanum = cs.head?.any Char.isAlphanum := by
      cases cs with
      | nil => rfl
      | cons => rfl
    rw [List.cons_append, splitName, splitName, ih, hhead]
    split <;> rfl

theorem splitStop_append_newline (cs y : Text) :
    splitStop (cs ++ '\n' :: y) = ((splitStop cs).1, (splitStop cs).2 ++ '\n' :: y) := by
  cases cs with
  | nil => rfl
  | cons c cs =>
    by_cases hc : c = '.'
    · subst hc
      rfl
    · have hother (rest : Text) : splitStop (c :: rest) = ([], c :: rest) := by
        unfold splitStop
        split
        · rename_i h
          exact absurd (List.cons.inj h).1 hc
        · rfl
      rw [List.cons_append, hother, hother]
      rfl

theorem identifier_append_newline : identifier c (cs ++ '\n' :: y) =
    { identifier c cs with rest := (identifier c cs).rest ++ '\n' :: y } := by
  simp only [identifier, splitName_append_newline, splitStop_append_newline]
  split <;> rfl

theorem punctuation_append_newline : punctuation c (cs ++ '\n' :: y) =
    { punctuation c cs with rest := (punctuation c cs).rest ++ '\n' :: y } := by
  unfold punctuation
  cases cs with
  | nil => split <;> first | rfl | simp_all
  | cons d cs => split <;> first | rfl | simp_all

/-- A line feed ahead changes nothing of a lexeme. -/
theorem read_append_newline : read c (cs ++ '\n' :: y) =
    { read c cs with rest := (read c cs).rest ++ '\n' :: y } := by
  unfold read
  split
  · rfl
  · rfl
  · rw [takeWhile_append_newline rfl, dropWhile_append_newline rfl]
  · exact identifier_append_newline
  · rw [takeWhile_append_newline rfl, dropWhile_append_newline rfl]
  · exact punctuation_append_newline
  · rfl

theorem read_newline : read '\n' y = ⟨some .newline, ['\n'], ['\n'], y⟩ := rfl

/-- A blank character or a line feed is a lexeme, and no token but that of a line feed. -/
theorem read_blank (cs : Text) (h : c = '\n' ∨ classify c = .blank) :
    ((read c cs).kind = none ∨ (read c cs).kind = some .newline) ∧ (read c cs).rest = cs := by
  rcases h with rfl | h
  · exact ⟨.inr rfl, rfl⟩
  · rw [read, h]
    exact ⟨.inl rfl, rfl⟩

theorem kind_punctuation (c : Char) (cs : Text) : (punctuation c cs).kind ≠ some .newline ∧
    (punctuation c cs).kind ≠ some .endOfFile := by
  unfold punctuation
  split
  · simp
  · unfold punctuationKind
    split <;> simp

theorem kind_ne_endOfFile : (read c cs).kind ≠ some .endOfFile := by
  unfold read
  split <;> try simp
  · simp only [identifier]
    split <;> simp
  · exact (kind_punctuation c cs).2

theorem eq_newline_of_classify (h : classify c = .newline) : c = '\n' := by
  unfold classify at h
  split at h
  · assumption
  · repeat' split at h
    all_goals cases h

theorem eq_newline_of_kind (h : (read c cs).kind = some .newline) : c = '\n' := by
  unfold read at h
  split at h
  · cases h
  · exact eq_newline_of_classify (by assumption)
  · cases h
  · simp only [identifier] at h
    split at h <;> cases h
  · cases h
  · exact absurd h (kind_punctuation c cs).1
  · cases h

end Lexeme

namespace Token

/-- The number of open braces behind a text. -/
def depthAfter (depth : Nat) : Text → Nat
  | [] => depth
  | c :: cs => depthAfter (braceDepth depth (Lexeme.read c cs).kind) (Lexeme.read c cs).rest
termination_by t => t.length
decreasing_by exact Lexeme.rest_length c cs

/-- The token of a lexeme, if it makes one: a line feed inside braces does not. -/
def ofLexeme? (depth : Nat) (p : Position) (lexeme : Lexeme) : List Token :=
  match lexeme.kind with
  | none => []
  | some kind => if kind = .newline ∧ depth ≠ 0 then [] else [⟨kind, lexeme.text, p⟩]

/-- A lexeme's token has its kind and text, and stands where the lexeme begins. -/
theorem mem_ofLexeme? {lexeme : Lexeme} : t ∈ ofLexeme? depth p lexeme ↔
    lexeme.kind = some t.kind ∧ t.text = lexeme.text ∧ t.position = p ∧
      (t.kind = .newline → depth = 0) := by
  obtain ⟨kind, text, position⟩ := t
  unfold ofLexeme?
  cases lexeme.kind with
  | none => simp
  | some k =>
    dsimp only
    split
    · rename_i hopen
      refine iff_of_false List.not_mem_nil ?_
      rintro ⟨hkind, -, -, hclosed⟩
      exact hopen.2 (hclosed ((Option.some.inj hkind).symm.trans hopen.1))
    · rename_i hclosed
      rw [List.mem_singleton, Token.mk.injEq, Option.some.injEq]
      constructor
      · rintro ⟨rfl, htext, hposition⟩
        exact ⟨rfl, htext, hposition, fun h => Decidable.not_not.mp fun hne => hclosed ⟨h, hne⟩⟩
      · rintro ⟨rfl, htext, hposition, -⟩
        exact ⟨rfl, htext, hposition⟩

theorem kind_of_mem_ofLexeme? {lexeme : Lexeme} (h : t ∈ ofLexeme? depth p lexeme) :
    lexeme.kind = some t.kind := (mem_ofLexeme?.mp h).1

/-- A lexeme makes one token, or none and then leaves the braces as they are. -/
theorem ofLexeme?_cases (depth : Nat) (p : Position) (lexeme : Lexeme) :
    ofLexeme? depth p lexeme = [] ∧ braceDepth depth lexeme.kind = depth ∧
        (lexeme.kind = none ∨ lexeme.kind = some .newline ∧ depth ≠ 0) ∨
      ∃ t, ofLexeme? depth p lexeme = [t] := by
  unfold ofLexeme?
  cases lexeme.kind with
  | none => exact .inl ⟨rfl, rfl, .inl rfl⟩
  | some kind =>
    dsimp only
    split
    · rename_i hopen
      obtain ⟨rfl, hne⟩ := hopen
      exact .inl ⟨rfl, rfl, .inr ⟨rfl, hne⟩⟩
    · exact .inr ⟨_, rfl⟩

/-- The tokens of a text without the end of the file. -/
def lexed (depth : Nat) (p : Position) : Text → List Token
  | [] => []
  | c :: cs => ofLexeme? depth p (Lexeme.read c cs) ++
    lexed (braceDepth depth (Lexeme.read c cs).kind) (p.after (Lexeme.read c cs).extent)
      (Lexeme.read c cs).rest
termination_by t => t.length
decreasing_by exact Lexeme.rest_length c cs

theorem tokenizeFrom_cons : tokenizeFrom depth p (c :: cs) = ofLexeme? depth p (Lexeme.read c cs) ++
    tokenizeFrom (braceDepth depth (Lexeme.read c cs).kind) (p.after (Lexeme.read c cs).extent)
      (Lexeme.read c cs).rest := by
  rw [tokenizeFrom, ofLexeme?]
  cases (Lexeme.read c cs).kind with
  | none => rfl
  | some kind =>
    dsimp only
    split <;> rfl

theorem after_lexeme (p : Position) (c : Char) (cs : Text) :
    (p.after (Lexeme.read c cs).extent).after (Lexeme.read c cs).rest = p.after (c :: cs) := by
  rw [← Position.after_append, Lexeme.extent_append_rest]

/-- The tokens of a text are followed by the end of the file. -/
theorem tokenizeFrom_eq (depth : Nat) (p : Position) (x : Text) :
    tokenizeFrom depth p x = lexed depth p x ++ [eof (p.after x)] := by
  induction depth, p, x using lexed.induct with
  | case1 depth p => rw [tokenizeFrom, lexed]; rfl
  | case2 depth p c cs ih => rw [tokenizeFrom_cons, lexed, ih, after_lexeme, List.append_assoc]

/-- A text before a line feed is cut into tokens as if the file ended there. -/
theorem tokenizeFrom_append_newline (depth : Nat) (p : Position) (x y : Text) :
    tokenizeFrom depth p (x ++ '\n' :: y) =
      lexed depth p x ++ tokenizeFrom (depthAfter depth x) (p.after x) ('\n' :: y) := by
  induction depth, p, x using lexed.induct with
  | case1 depth p => rw [lexed, depthAfter]; rfl
  | case2 depth p c cs ih =>
    rw [List.cons_append, tokenizeFrom_cons, Lexeme.read_append_newline, lexed, depthAfter]
    dsimp only [ofLexeme?] at ih ⊢
    rw [ih, after_lexeme, List.append_assoc]

theorem depthAfter_append_newline (depth : Nat) (x y : Text) :
    depthAfter depth (x ++ '\n' :: y) = depthAfter (depthAfter depth x) ('\n' :: y) := by
  induction depth, x using depthAfter.induct with
  | case1 depth => rw [depthAfter]; rfl
  | case2 depth c cs ih =>
    have hcons : depthAfter depth (c :: cs) = depthAfter
        (braceDepth depth (Lexeme.read c cs).kind) (Lexeme.read c cs).rest := by rw [depthAfter]
    rw [hcons, ← ih, List.cons_append, depthAfter, Lexeme.read_append_newline]

theorem depthAfter_newline : depthAfter depth ('\n' :: y) = depthAfter depth y := by
  rw [depthAfter, Lexeme.read_newline]
  rfl

/-- Outside braces a line feed is a token. -/
theorem lexed_newline (p : Position) : lexed 0 p ['\n'] = [⟨.newline, ['\n'], p⟩] := by
  rw [lexed, Lexeme.read_newline, lexed, List.append_nil]
  rfl

/-- Within braces it is none. -/
theorem lexed_newline_open (hopen : depth ≠ 0) (p : Position) : lexed depth p ['\n'] = [] := by
  rw [lexed, Lexeme.read_newline, lexed, List.append_nil, ofLexeme?]
  exact if_pos ⟨rfl, hopen⟩

theorem tokenizeFrom_newline : tokenizeFrom depth p ('\n' :: y) =
    lexed depth p ['\n'] ++ tokenizeFrom depth (p.after ['\n']) y := by
  rw [tokenizeFrom_cons, lexed, Lexeme.read_newline, Lexeme.read_newline]
  dsimp only
  rw [lexed, List.append_nil]
  rfl

end Token

/-- The text is empty or ends in a line feed. -/
def Text.EndsLine (x : Text) : Prop := x = [] ∨ x.getLast? = some '\n'

theorem Text.EndsLine.eq_concat (h : x.EndsLine) : x = [] ∨ ∃ z, x = z ++ ['\n'] := by
  refine h.imp_right fun hlast => ?_
  obtain ⟨z, hz⟩ := List.getLast?_eq_some_iff.mp hlast
  exact ⟨z, hz⟩

namespace Token

theorem lexed_concat_newline (depth : Nat) (p : Position) (x : Text) : lexed depth p (x ++ ['\n']) =
    lexed depth p x ++ lexed (depthAfter depth x) (p.after x) ['\n'] := by
  have h := tokenizeFrom_append_newline depth p x []
  rw [tokenizeFrom_eq, tokenizeFrom_eq, ← List.append_assoc] at h
  exact (List.append_inj' h rfl).1

/-- What follows a text that ends in a line feed is cut into tokens on its own. -/
theorem tokenizeFrom_append (hx : x.EndsLine) (depth : Nat) (p : Position) (y : Text) :
    tokenizeFrom depth p (x ++ y) =
      lexed depth p x ++ tokenizeFrom (depthAfter depth x) (p.after x) y := by
  rcases hx.eq_concat with rfl | ⟨z, rfl⟩
  · rw [lexed, depthAfter]
    rfl
  · rw [List.append_assoc, List.singleton_append, tokenizeFrom_append_newline,
      tokenizeFrom_newline, lexed_concat_newline, List.append_assoc, depthAfter_append_newline,
      depthAfter_newline, depthAfter, Position.after_append]

theorem lexed_append (hx : x.EndsLine) (depth : Nat) (p : Position) (y : Text) :
    lexed depth p (x ++ y) = lexed depth p x ++ lexed (depthAfter depth x) (p.after x) y := by
  have h := tokenizeFrom_append hx depth p y
  rw [tokenizeFrom_eq, tokenizeFrom_eq, ← List.append_assoc] at h
  exact (List.append_inj' h rfl).1

theorem depthAfter_append (hx : x.EndsLine) (depth : Nat) (y : Text) :
    depthAfter depth (x ++ y) = depthAfter (depthAfter depth x) y := by
  rcases hx.eq_concat with rfl | ⟨z, rfl⟩
  · rw [depthAfter]
    rfl
  · rw [List.append_assoc, List.singleton_append, depthAfter_append_newline,
      depthAfter_append_newline, depthAfter_newline, depthAfter_newline, depthAfter]

theorem kind_ne_endOfFile_of_mem_lexed (h : t ∈ lexed depth p x) : t.kind ≠ .endOfFile := by
  induction depth, p, x using lexed.induct with
  | case1 depth p =>
    rw [lexed] at h
    cases h
  | case2 depth p c cs ih =>
    rw [lexed, List.mem_append] at h
    refine h.elim (fun h hend => ?_) ih
    exact Lexeme.kind_ne_endOfFile ((kind_of_mem_ofLexeme? h).trans (congrArg some hend))

/-- Outside braces a text that ends in a line feed has the token of that one last. -/
theorem lexed_ends_newline (hx : x.EndsLine) (hdepth : depthAfter depth x = 0) :
    lexed depth p x = [] ∨ ∃ ts e, lexed depth p x = ts ++ [e] ∧ e.kind = .newline := by
  rcases hx.eq_concat with rfl | ⟨z, rfl⟩
  · exact .inl (by rw [lexed])
  · rw [depthAfter_append_newline, depthAfter_newline, depthAfter] at hdepth
    refine .inr ⟨lexed depth p z, ⟨.newline, ['\n'], p.after z⟩, ?_, rfl⟩
    rw [lexed_concat_newline, hdepth, lexed_newline]

/-- A text without line feeds has no token of one. -/
theorem kind_ne_newline_of_mem_lexed (hx : '\n' ∉ x) (h : t ∈ lexed depth p x) :
    t.kind ≠ .newline := by
  induction depth, p, x using lexed.induct with
  | case1 depth p =>
    rw [lexed] at h
    cases h
  | case2 depth p c cs ih =>
    have hrest : '\n' ∉ (Lexeme.read c cs).rest := fun hmem =>
      hx (Lexeme.extent_append_rest c cs ▸ List.mem_append_right _ hmem)
    rw [lexed, List.mem_append] at h
    refine h.elim (fun h hnewline => hx ?_) (ih hrest)
    have hkind := (kind_of_mem_ofLexeme? h).trans (congrArg some hnewline)
    exact Lexeme.eq_newline_of_kind hkind ▸ List.mem_cons_self ..

/-- Blank characters and line feeds make no tokens but those of line feeds. -/
theorem kind_of_mem_lexed_blank (hx : ∀ c ∈ x, c = '\n' ∨ Text.classify c = .blank)
    (h : t ∈ lexed depth p x) : t.kind = .newline := by
  induction depth, p, x using lexed.induct with
  | case1 depth p =>
    rw [lexed] at h
    cases h
  | case2 depth p c cs ih =>
    rw [List.forall_mem_cons] at hx
    obtain ⟨hread, hrest⟩ := Lexeme.read_blank cs hx.1
    rw [lexed, List.mem_append] at h
    rw [hrest] at ih h
    refine h.elim (fun h => ?_) (ih hx.2)
    rw [kind_of_mem_ofLexeme? h] at hread
    rcases hread with hkind | hkind
    · cases hkind
    · exact Option.some.inj hkind

theorem depthAfter_blank (hx : ∀ c ∈ x, c = '\n' ∨ Text.classify c = .blank) :
    depthAfter depth x = depth := by
  induction x with
  | nil => rw [depthAfter]
  | cons c cs ih =>
    rw [List.forall_mem_cons] at hx
    obtain ⟨hread, hrest⟩ := Lexeme.read_blank cs hx.1
    have hdepth : braceDepth depth (Lexeme.read c cs).kind = depth := by
      rcases hread with hkind | hkind <;> rw [hkind] <;> rfl
    rw [depthAfter, hdepth, hrest]
    exact ih hx.2

end Token

/-! ## Whole lines -/

namespace Text

/-- The text ends a line, outside braces. -/
structure WholeLines (x : Text) : Prop where
  endsLine : x.EndsLine
  closed : Token.depthAfter 0 x = 0

theorem wholeLines_nil : WholeLines [] := ⟨.inl rfl, by rw [Token.depthAfter]⟩

theorem EndsLine.append (hx : x.EndsLine) (hy : y.EndsLine) : (x ++ y).EndsLine := by
  rcases hy with rfl | hy
  · rwa [List.append_nil]
  · exact .inr (by rw [List.getLast?_append, hy]; rfl)

theorem WholeLines.append (hx : x.WholeLines) (hy : y.WholeLines) : (x ++ y).WholeLines :=
  ⟨hx.endsLine.append hy.endsLine, by
    rw [Token.depthAfter_append hx.endsLine, hx.closed, hy.closed]⟩

/-- Blank lines in the place of a text: as many as that has. -/
structure Blanks (blank x : Text) : Prop where
  isBlank : ∀ c ∈ blank, c = '\n' ∨ classify c = .blank
  count_eq : blank.count '\n' = x.count '\n'
  endsLine : x.EndsLine → blank.EndsLine

theorem Blanks.wholeLines {blank : Text} (h : blank.Blanks x) (hx : x.EndsLine) :
    blank.WholeLines := ⟨h.endsLine hx, Token.depthAfter_blank h.isBlank⟩

/-- What follows blank lines stands where it stood. -/
theorem Blanks.after_eq {blank : Text} (h : blank.Blanks x) (hx : x.EndsLine) (p : Position) :
    p.after blank = p.after x := by
  have hcount := h.count_eq
  rcases hx.eq_concat with rfl | ⟨z, rfl⟩ <;> rcases (h.endsLine hx).eq_concat with rfl | ⟨w, rfl⟩
  · rfl
  · simp at hcount
  · simp at hcount
  · rw [Position.after_concat_newline, Position.after_concat_newline, hcount]

end Text

namespace Token

/-- The first line of a text, which goes on until no brace is open. -/
theorem exists_firstLine (depth : Nat) (p : Position) (x : Text) :
    (∀ t ∈ lexed depth p x, t.kind ≠ .newline) ∨ ∃ line rest ts e, x = line ++ rest ∧
      line ≠ [] ∧ line.EndsLine ∧ depthAfter depth line = 0 ∧
      lexed depth p line = ts ++ [e] ∧ (∀ t ∈ ts, t.kind ≠ .newline) ∧ e.kind = .newline := by
  induction hn : x.length using Nat.strongRecOn generalizing depth p x with
  | ind n ih =>
    by_cases hx : '\n' ∈ x
    · obtain ⟨z, y, rfl, hz⟩ := List.eq_append_cons_of_mem hx
      have hends : Text.EndsLine (z ++ ['\n']) := .inr List.getLast?_concat
      have hsplit : z ++ '\n' :: y = z ++ ['\n'] ++ y := by rw [List.append_assoc]; rfl
      have hline : ∀ t ∈ lexed depth p z, t.kind ≠ .newline := fun t =>
        kind_ne_newline_of_mem_lexed hz
      have hdepth : depthAfter depth (z ++ ['\n']) = depthAfter depth z := by
        rw [depthAfter_append_newline, depthAfter_newline, depthAfter]
      rw [hsplit]
      by_cases hclosed : depthAfter depth z = 0
      · refine .inr ⟨z ++ ['\n'], y, lexed depth p z, ⟨.newline, ['\n'], p.after z⟩, rfl,
          by simp, hends, by rw [hdepth, hclosed], ?_, hline, rfl⟩
        rw [lexed_concat_newline, hclosed, lexed_newline]
      · -- within braces the line feed makes no token, and the line goes on
        have hopen : lexed depth p (z ++ ['\n']) = lexed depth p z := by
          rw [lexed_concat_newline, lexed_newline_open hclosed, List.append_nil]
        have hlt : y.length < n := by
          rw [← hn, List.length_append, List.length_cons]
          omega
        rcases ih _ hlt (depthAfter depth (z ++ ['\n'])) (p.after (z ++ ['\n'])) y rfl with
          hnone | ⟨line, rest, ts, e, rfl, hne, hends', hclosed', htokens, hts, he⟩
        · refine .inl fun t ht => ?_
          rw [lexed_append hends, hopen, List.mem_append] at ht
          exact ht.elim (hline t) (hnone t)
        · refine .inr ⟨z ++ ['\n'] ++ line, rest, lexed depth p z ++ ts, e,
            (List.append_assoc ..).symm, by simp, hends.append hends', ?_, ?_, ?_, he⟩
          · rw [depthAfter_append hends, hclosed']
          · rw [lexed_append hends, hopen, htokens, List.append_assoc]
          · exact fun t ht => (List.mem_append.mp ht).elim (hline t) (hts t)
    · exact .inl fun t => kind_ne_newline_of_mem_lexed hx

end Token

end SoundChange
