import SoundChange.Proofs.Statement.Line
import SoundChange.Proofs.Token.Line

/-!
# Files line by line

A file is read line by line (`Statement.readFrom_line`), and what stands on some lines affects the
others only by the categories that it makes known (`Statement.readFrom_append`). So the entries of a
file are those of its parts, one after the other (`Statement.readFrom_text`), and each of them is
that of some text in it (`Statement.exists_stands`), in whose place blank lines can stand
(`Statement.Stands.readFrom_blank`).
-/

namespace SoundChange.Statement

variable {line rest ts : List Token} {t e : Token} {known : List Text} {p : Position} {x : Text}

/-- The categories that are known after some entries. -/
def knownAfter (known : List Text) : List Entry → List Text
  | [] => known
  | entry :: entries => knownAfter (declaredCategory entry.result ++ known) entries

/-- An entry is read from some end of the tokens, with the categories of the entries before it. -/
theorem exists_read_of_readFrom {earlier later : List Entry} {entry : Entry}
    (h : readFrom known ts = earlier ++ entry :: later) :
    ∃ rest, rest <:+ ts ∧ entry.result = (read (knownAfter known earlier) rest).result := by
  induction known, ts using readFrom.induct generalizing earlier with
  | case1 known =>
    rw [readFrom] at h
    simp at h
  | case2 known t ts hnewline ih =>
    rw [readFrom, if_pos hnewline] at h
    obtain ⟨rest, hrest, hentry⟩ := ih h
    exact ⟨rest, hrest.trans (List.suffix_cons ..), hentry⟩
  | case3 known t ts hnewline hend =>
    rw [readFrom, if_neg hnewline, if_pos hend] at h
    simp at h
  | case4 known t ts hnewline hend r =>
    rename_i ih
    rw [readFrom, if_neg hnewline, if_neg hend] at h
    cases earlier with
    | nil =>
      obtain ⟨rfl, -⟩ := List.cons.inj h
      exact ⟨t :: ts, List.suffix_refl _, rfl⟩
    | cons first earlier =>
      obtain ⟨rfl, hrest⟩ := List.cons.inj h
      obtain ⟨rest, hsuffix, hentry⟩ := ih hrest
      exact ⟨rest, hsuffix.trans (read_suffix ..), hentry⟩

theorem readFrom_newline (he : e.kind = .newline) :
    readFrom known (e :: rest) = readFrom known rest := by
  rw [readFrom, if_pos he]

theorem readFrom_endOfFile (he : e.kind = .endOfFile) : readFrom known (e :: rest) = [] := by
  rw [readFrom, if_neg (by simp [he]), if_pos he]

/-- A line that is not blank has an entry. -/
theorem readFrom_cons (known : List Text) (ht : ¬ t.EndsLine) (ts : List Token) :
    readFrom known (t :: ts) = ⟨t.position.line, (read known (t :: ts)).result⟩ ::
      readFrom (declaredCategory (read known (t :: ts)).result ++ known)
        (read known (t :: ts)).rest := by
  rw [readFrom, if_neg fun h => ht (.inl h), if_neg fun h => ht (.inr h)]

/-- A file is read line by line: the entry of a line, and then what follows. -/
theorem readFrom_line (known : List Text) (hline : ∀ t ∈ line, ¬ t.EndsLine)
    (he : e.kind = .newline) (hne : line ≠ []) :
    ∃ entry : Entry, ∀ rest, readFrom known (line ++ e :: rest) =
      entry :: readFrom (declaredCategory entry.result ++ known) rest := by
  obtain ⟨result, hall⟩ : Reading.Keeps (read known) line e := keeps_read hline (.inl he)
  obtain ⟨t, line, rfl⟩ := List.exists_cons_of_ne_nil hne
  have ht := hline t (List.mem_cons_self ..)
  refine ⟨⟨t.position.line, result⟩, fun rest => ?_⟩
  obtain ⟨hresult, hleft⟩ := hall rest
  rw [LeavesLine, if_pos he] at hleft
  rw [List.cons_append] at hresult hleft ⊢
  rw [readFrom_cons known ht, hresult, hleft]

/-- The last line of a file. -/
theorem readFrom_lastLine (known : List Text) (hline : ∀ t ∈ line, ¬ t.EndsLine)
    (he : e.kind = .endOfFile) (hne : line ≠ []) :
    ∃ entry : Entry, readFrom known (line ++ [e]) = [entry] := by
  obtain ⟨result, hall⟩ : Reading.Keeps (read known) line e := keeps_read hline (.inr he)
  obtain ⟨t, line, rfl⟩ := List.exists_cons_of_ne_nil hne
  have ht := hline t (List.mem_cons_self ..)
  refine ⟨⟨t.position.line, result⟩, ?_⟩
  obtain ⟨hresult, hleft⟩ := hall []
  rw [LeavesLine, if_neg (by simp [he])] at hleft
  rw [List.cons_append] at hresult hleft ⊢
  rw [readFrom_cons known ht, hresult]
  rcases hleft with hleft | hleft
  · rw [hleft, skipLine, readFrom]
  · rw [hleft, readFrom_endOfFile he]

/-- Some tokens are whole lines. -/
def WholeLines (ts : List Token) : Prop :=
  ts = [] ∨ ∃ init e, ts = init ++ [e] ∧ e.kind = .newline

theorem WholeLines.exists_line {ts : List Token} (h : WholeLines ts)
    (hfile : ∀ t ∈ ts, t.kind ≠ .endOfFile) (hne : ts ≠ []) :
    ∃ line e rest, ts = line ++ e :: rest ∧ (∀ t ∈ line, ¬ t.EndsLine) ∧ e.kind = .newline ∧
      WholeLines rest := by
  obtain ⟨init, last, rfl, hlast⟩ := h.resolve_left hne
  clear h hne
  induction init with
  | nil => exact ⟨[], last, [], rfl, nofun, hlast, .inl rfl⟩
  | cons t init ih =>
    by_cases ht : t.kind = .newline
    · exact ⟨[], t, init ++ [last], rfl, nofun, ht, .inr ⟨init, last, rfl, hlast⟩⟩
    · rw [List.cons_append, List.forall_mem_cons] at hfile
      obtain ⟨line, e, rest, hinit, hline, he, hrest⟩ := ih hfile.2
      refine ⟨t :: line, e, rest, by rw [List.cons_append, hinit, List.cons_append],
        List.forall_mem_cons.mpr ⟨fun h => h.elim ht hfile.1, hline⟩, he, hrest⟩

/-- What whole lines have is read before what follows them, and only the categories that they make
known matter to that. -/
theorem readFrom_append {ts : List Token} (hts : WholeLines ts)
    (hfile : ∀ t ∈ ts, t.kind ≠ .endOfFile) : readFrom known (ts ++ rest) =
      readFrom known ts ++ readFrom (knownAfter known (readFrom known ts)) rest := by
  induction hn : ts.length using Nat.strongRecOn generalizing ts known with
  | ind n ih =>
    by_cases hne : ts = []
    · subst hne
      rw [readFrom]
      rfl
    · obtain ⟨line, e, rest', rfl, hline, he, hrest⟩ := hts.exists_line hfile hne
      have hlt : rest'.length < n := by
        rw [← hn, List.length_append, List.length_cons]
        omega
      have ih (known : List Text) := @ih _ hlt known rest' hrest
        (fun t ht => hfile t (List.mem_append_right _ (List.mem_cons_of_mem _ ht))) rfl
      rw [List.append_assoc, List.cons_append]
      by_cases hnil : line = []
      · subst hnil
        rw [List.nil_append, List.nil_append, readFrom_newline he, readFrom_newline he, ih]
      · obtain ⟨entry, hentry⟩ := readFrom_line known hline he hnil
        rw [hentry, hentry, ih, List.cons_append]
        rfl

/-! ## Parts of a file -/

open Token (tokenizeFrom lexed depthAfter)

theorem readFrom_nil (known : List Text) (p : Position) :
    readFrom known (tokenizeFrom 0 p []) = [] := by
  rw [Token.tokenizeFrom, readFrom_endOfFile rfl]

theorem not_endsLine_of_mem_lexed {depth : Nat} (h : t ∈ lexed depth p x)
    (hnewline : t.kind ≠ .newline) : ¬ t.EndsLine :=
  fun hend => hend.elim hnewline (Token.kind_ne_endOfFile_of_mem_lexed h)

theorem wholeLines_lexed (hx : x.WholeLines) (p : Position) : WholeLines (lexed 0 p x) :=
  Token.lexed_ends_newline hx.endsLine hx.closed

theorem readFrom_lexed (hx : x.WholeLines) :
    readFrom known (tokenizeFrom 0 p x) = readFrom known (lexed 0 p x) := by
  rw [Token.tokenizeFrom_eq, readFrom_append (wholeLines_lexed hx p) fun _ =>
    Token.kind_ne_endOfFile_of_mem_lexed, readFrom_endOfFile rfl, List.append_nil]

/-- The entries of whole lines come first, and what follows is read with the categories that they
make known. -/
theorem readFrom_text (hx : x.WholeLines) (known : List Text) (p : Position) (y : Text) :
    readFrom known (tokenizeFrom 0 p (x ++ y)) = readFrom known (tokenizeFrom 0 p x) ++
      readFrom (knownAfter known (readFrom known (tokenizeFrom 0 p x)))
        (tokenizeFrom 0 (p.after x) y) := by
  rw [Token.tokenizeFrom_append hx.endsLine, hx.closed, readFrom_append (wholeLines_lexed hx p)
    fun _ => Token.kind_ne_endOfFile_of_mem_lexed, readFrom_lexed hx]

theorem readFrom_newlines (h : ∀ t ∈ ts, t.kind = .newline) :
    readFrom known (ts ++ rest) = readFrom known rest := by
  induction ts with
  | nil => rfl
  | cons t ts ih =>
    rw [List.forall_mem_cons] at h
    rw [List.cons_append, readFrom_newline h.1, ih h.2]

/-- Blank lines have no entries. -/
theorem readFrom_blank (hx : ∀ c ∈ x, c = '\n' ∨ Text.classify c = .blank) (known : List Text)
    (p : Position) : readFrom known (tokenizeFrom 0 p x) = [] := by
  rw [Token.tokenizeFrom_eq, readFrom_newlines fun _ => Token.kind_of_mem_lexed_blank hx,
    readFrom_endOfFile rfl]

/-- The first line of a file, with the entry that it may have. -/
theorem readFrom_firstLine {init : List Token} (known : List Text) (hx : x.WholeLines)
    (htokens : lexed 0 p x = init ++ [e]) (hinit : ∀ t ∈ init, t.kind ≠ .newline)
    (he : e.kind = .newline) : readFrom known (tokenizeFrom 0 p x) = [] ∨
      ∃ entry, readFrom known (tokenizeFrom 0 p x) = [entry] := by
  have hline : ∀ t ∈ init, ¬ t.EndsLine := fun t ht =>
    not_endsLine_of_mem_lexed (htokens ▸ List.mem_append_left _ ht) (hinit t ht)
  rw [readFrom_lexed hx, htokens]
  by_cases hne : init = []
  · subst hne
    rw [List.nil_append, readFrom_newline he, readFrom]
    exact .inl rfl
  · obtain ⟨entry, hentry⟩ := readFrom_line known hline he hne
    rw [hentry, readFrom]
    exact .inr ⟨entry, rfl⟩

/-- A file of one line. -/
theorem readFrom_onlyLine (known : List Text) (hx : ∀ t ∈ lexed 0 p x, t.kind ≠ .newline) :
    readFrom known (tokenizeFrom 0 p x) = [] ∨
      ∃ entry, readFrom known (tokenizeFrom 0 p x) = [entry] := by
  have hline : ∀ t ∈ lexed 0 p x, ¬ t.EndsLine := fun t ht =>
    not_endsLine_of_mem_lexed ht (hx t ht)
  rw [Token.tokenizeFrom_eq]
  by_cases hne : lexed 0 p x = []
  · rw [hne, List.nil_append, readFrom_endOfFile rfl]
    exact .inl rfl
  · exact .inr (readFrom_lastLine known hline rfl hne)

/-- In a file that is read from `p` on, an entry is that of the text between two parts: that text
begins where lines before it end, and what follows it begins on a line of its own. -/
structure Stands (known : List Text) (p : Position) (before text after : Text) (entry : Entry) :
    Prop where
  before_wholeLines : before.WholeLines
  text_wholeLines : after = [] ∨ text.WholeLines
  reads : readFrom known (tokenizeFrom 0 p (before ++ text)) =
    readFrom known (tokenizeFrom 0 p before) ++ [entry]

/-- The entries before a text are those of the lines before it. -/
theorem Stands.prepend {entry : Entry} {before text after : Text} (hx : x.WholeLines)
    (h : Stands (knownAfter known (readFrom known (tokenizeFrom 0 p x))) (p.after x) before text
      after entry) : Stands known p (x ++ before) text after entry where
  before_wholeLines := hx.append h.before_wholeLines
  text_wholeLines := h.text_wholeLines
  reads := by
    rw [List.append_assoc, readFrom_text hx, readFrom_text hx, h.reads, List.append_assoc]

/-- A text at the start of a file. -/
theorem Stands.first {entry : Entry} {text after : Text} (htext : after = [] ∨ text.WholeLines)
    (h : readFrom known (tokenizeFrom 0 p text) = [entry]) :
    Stands known p [] text after entry where
  before_wholeLines := Text.wholeLines_nil
  text_wholeLines := htext
  reads := by rw [List.nil_append, h, readFrom_nil, List.nil_append]

section Stands

variable {before text after blank : Text} {entry : Entry}

theorem knownAfter_concat (known : List Text) (entries : List Entry) (entry : Entry) :
    knownAfter known (entries ++ [entry]) =
      declaredCategory entry.result ++ knownAfter known entries := by
  induction entries generalizing known with
  | nil => rfl
  | cons first entries ih => exact ih _

/-- The entries of a file, at one that stands in it. -/
theorem Stands.readFrom_eq (h : Stands known p before text after entry) :
    readFrom known (tokenizeFrom 0 p (before ++ text ++ after)) =
      readFrom known (tokenizeFrom 0 p before) ++ entry ::
        readFrom (declaredCategory entry.result ++
            knownAfter known (readFrom known (tokenizeFrom 0 p before)))
          (tokenizeFrom 0 (p.after (before ++ text)) after) := by
  rcases h.text_wholeLines with rfl | htext
  · rw [List.append_nil, h.reads, readFrom_nil]
  · rw [readFrom_text (h.before_wholeLines.append htext), h.reads, knownAfter_concat,
      List.append_assoc, List.singleton_append]

/-- The entries of the file with blank lines in the place of a text: what follows is read without
the category that the text may make known. -/
theorem Stands.readFrom_blank (h : Stands known p before text after entry)
    (hblank : blank.Blanks text) :
    readFrom known (tokenizeFrom 0 p (before ++ blank ++ after)) =
      readFrom known (tokenizeFrom 0 p before) ++
        readFrom (knownAfter known (readFrom known (tokenizeFrom 0 p before)))
          (tokenizeFrom 0 (p.after (before ++ text)) after) := by
  rcases h.text_wholeLines with rfl | htext
  · rw [List.append_nil, readFrom_text h.before_wholeLines, Statement.readFrom_blank hblank.isBlank,
      readFrom_nil]
  · rw [List.append_assoc, readFrom_text h.before_wholeLines,
      readFrom_text (hblank.wholeLines htext.endsLine), Statement.readFrom_blank hblank.isBlank,
      hblank.after_eq htext.endsLine, Position.after_append]
    rfl

end Stands

/-- Every entry of a file is that of some text in it. -/
theorem exists_stands {earlier later : List Entry} {entry : Entry}
    (h : readFrom known (tokenizeFrom 0 p x) = earlier ++ entry :: later) :
    ∃ before text after, x = before ++ text ++ after ∧ Stands known p before text after entry ∧
      readFrom known (tokenizeFrom 0 p before) = earlier := by
  induction hn : x.length using Nat.strongRecOn generalizing known p x earlier with
  | ind n ih =>
    rcases Token.exists_firstLine 0 p x with
      hlast | ⟨line, rest, init, e, rfl, hne, hends, hclosed, htokens, hinit, he⟩
    · -- the file is one line
      rcases readFrom_onlyLine known hlast with hnone | ⟨only, honly⟩
      · rw [hnone] at h
        simp at h
      · rw [honly, List.singleton_eq_append_iff] at h
        obtain ⟨rfl, hentry⟩ | ⟨-, hentry⟩ := h
        · rw [← (List.cons.inj hentry).1] at honly
          exact ⟨[], x, [], (List.append_nil x).symm, .first (.inl rfl) honly, readFrom_nil known p⟩
        · cases hentry
    · have hwhole : line.WholeLines := ⟨hends, hclosed⟩
      have hlt : rest.length < n := by
        have := List.length_pos_iff.mpr hne
        rw [← hn, List.length_append]
        omega
      have hfirst := readFrom_firstLine known hwhole htokens hinit he
      rw [readFrom_text hwhole] at h
      -- an entry behind the first line is found in what follows that
      have hlater (earlier' : List Entry)
          (hearlier : earlier = readFrom known (tokenizeFrom 0 p line) ++ earlier')
          (h : readFrom (knownAfter known (readFrom known (tokenizeFrom 0 p line)))
            (tokenizeFrom 0 (p.after line) rest) = earlier' ++ entry :: later) :
          ∃ before text after, line ++ rest = before ++ text ++ after ∧
            Stands known p before text after entry ∧
            readFrom known (tokenizeFrom 0 p before) = earlier := by
        obtain ⟨before, text, after, rfl, hstands, hbefore⟩ := ih _ hlt h rfl
        refine ⟨line ++ before, text, after, ?_, .prepend hwhole hstands, ?_⟩
        · simp only [List.append_assoc]
        · rw [readFrom_text hwhole, hbefore, hearlier]
      rcases hfirst with hentries | ⟨first, hentries⟩
      · rw [hentries] at h hlater
        exact hlater earlier rfl h
      · rw [hentries] at h hlater
        cases earlier with
        | nil =>
          rw [(List.cons.inj h).1] at hentries
          exact ⟨[], line, rest, rfl, .first (.inr hwhole) hentries, readFrom_nil known p⟩
        | cons first' earlier =>
          obtain ⟨hfirst, htail⟩ := List.cons.inj h
          exact hlater earlier (by rw [hfirst]; rfl) htail

end SoundChange.Statement
