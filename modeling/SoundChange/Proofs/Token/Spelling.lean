import SoundChange.Proofs.Token.Line

/-!
# Spelling tokens

A text without line feeds spells the same kinds and texts of tokens wherever it stands
(`Token.Spells`). The rules say what each kind of piece at its start adds to what the rest spells: a
blank nothing, a punctuation mark and an arrow themselves, and a word itself if no further character
of a segment follows it.
-/

namespace SoundChange

variable {depth : Nat} {c : Char} {cs w x : Text} {t : Token}
  {spelled : List (TokenKind × Text)}

/-- A token apart from where it stands. -/
def Token.lexical (t : Token) : TokenKind × Text := (t.kind, t.text)

theorem Token.lexical_eq_iff {k : TokenKind} {x : Text} :
    t.lexical = (k, x) ↔ t.kind = k ∧ t.text = x := by
  rw [lexical, Prod.mk.injEq]

namespace Text

/-- A blank between tokens: a character with the property `White_Space` but for the line feed, or
the byte order mark. -/
def IsSpace (c : Char) : Prop := (isBlank c = true ∨ c = '\uFEFF') ∧ c ≠ '\n'

/-- A character of a word: any but the ones with the property `White_Space`, the byte order mark,
control characters, and printing ASCII characters that are no letters or digits. -/
def IsLetter (c : Char) : Prop :=
  ¬ (isBlank c = true ∨ c = '\uFEFF' ∨ isControl c = true ∨ isAsciiPunctuation c = true)

instance (c : Char) : Decidable (IsSpace c) := inferInstanceAs (Decidable ((_ ∨ _) ∧ _))

instance (c : Char) : Decidable (IsLetter c) :=
  inferInstanceAs (Decidable (¬ (_ ∨ _ ∨ _ ∨ _)))

/-- The characters of the classes of blanks and of segments. -/
theorem classify_iff (c : Char) :
    (classify c = .blank ↔ IsSpace c) ∧ (classify c = .segment ↔ IsLetter c) := by
  have hmarks : ((';' :: '$' :: grammarPunctuation).all fun d =>
      ¬ IsSpace d ∧ ¬ IsLetter d ∧ classify d ≠ .blank ∧ classify d ≠ .segment) = true := by decide
  by_cases hmark : c ∈ ';' :: '$' :: grammarPunctuation
  · obtain ⟨hspace, hletter, hblank, hsegment⟩ :=
      of_decide_eq_true (List.all_eq_true.mp hmarks c hmark)
    exact ⟨iff_of_false hblank hspace, iff_of_false hsegment hletter⟩
  · by_cases hline : c = '\n'
    · subst hline
      decide
    · simp only [List.mem_cons, not_or] at hmark
      unfold classify IsSpace IsLetter
      rw [if_neg hline, if_neg hmark.1, if_neg hmark.2.1, if_neg (by simpa using hmark.2.2)]
      grind

theorem isSegment_iff : isSegment c = true ↔ IsLetter c := by
  rw [isSegment, decide_eq_true_eq, (classify_iff c).2]

/-- The text is made of characters of words, at least one of them. -/
def IsWord (w : Text) : Prop := w ≠ [] ∧ ∀ c ∈ w, IsLetter c

instance (w : Text) : Decidable w.IsWord :=
  decidable_of_iff (w ≠ [] ∧ (w.all fun c => IsLetter c) = true) (and_congr_right' (by simp))

/-- The text does not go on with a character of a word. -/
def StopsWord (x : Text) : Prop := ∀ c ∈ x.head?, ¬ IsLetter c

theorem stopsWord_cons (h : ¬ IsLetter c) (x : Text) : StopsWord (c :: x) := by
  rintro _ ⟨⟩
  exact h

end Text

namespace Lexeme

open Text (classify isSegment isSegment_iff IsLetter)

/-- A word ends where no character of a segment follows. -/
theorem read_word (hc : IsLetter c) (hcs : ∀ d ∈ cs, IsLetter d) (hx : x.StopsWord) :
    read c (cs ++ x) = ⟨some .word, c :: cs, c :: cs, x⟩ := by
  have hclass : classify c = .segment := (Text.classify_iff c).2.mpr hc
  have hstop : x.takeWhile isSegment = [] ∧ x.dropWhile isSegment = x := by
    cases x with
    | nil => exact ⟨rfl, rfl⟩
    | cons d x =>
      have hd : ¬ isSegment d = true := mt isSegment_iff.mp (hx d rfl)
      exact ⟨List.takeWhile_cons_of_neg hd, List.dropWhile_cons_of_neg hd⟩
  rw [read, hclass]
  dsimp only
  have hcs : ∀ d ∈ cs, isSegment d = true := fun d hd => isSegment_iff.mpr (hcs d hd)
  rw [List.takeWhile_append_of_pos hcs, List.dropWhile_append_of_pos hcs, hstop.1, hstop.2,
    List.append_nil]

theorem read_punctuation (hc : classify c = .punctuation) (hne : c ≠ '=') (cs : Text) :
    read c cs = ⟨some (punctuationKind c), [c], [c], cs⟩ := by
  rw [read, hc]
  dsimp only
  unfold punctuation
  split
  · exact absurd rfl hne
  · rfl

end Lexeme

namespace Token

open Lexeme (punctuationKind)

/-- Inside some number of open braces the text is cut into tokens of these kinds and texts. -/
def Spells (depth : Nat) (x : Text) (spelled : List (TokenKind × Text)) : Prop :=
  ∀ p, (lexed depth p x).map lexical = spelled

namespace Spells

theorem nil : Spells depth [] [] := fun p => by
  rw [lexed]
  rfl

/-- A lexeme without a token. -/
theorem skip {text extent rest : Text} (hread : Lexeme.read c cs = ⟨none, text, extent, rest⟩)
    (h : Spells depth rest spelled) : Spells depth (c :: cs) spelled := fun p => by
  rw [lexed, hread]
  exact h _

/-- A lexeme with a token; that of a line feed is none in braces. -/
theorem token {kind : TokenKind} {text extent rest : Text}
    (hread : Lexeme.read c cs = ⟨some kind, text, extent, rest⟩)
    (hclosed : kind = .newline → depth = 0)
    (h : Spells (braceDepth depth (some kind)) rest spelled) :
    Spells depth (c :: cs) ((kind, text) :: spelled) := fun p => by
  rw [lexed, hread, ofLexeme?]
  dsimp only
  rw [if_neg fun hline => hline.2 (hclosed hline.1), List.map_append, h]
  rfl

theorem blank (hc : Text.classify c = .blank) (h : Spells depth cs spelled) :
    Spells depth (c :: cs) spelled := by
  have hread : Lexeme.read c cs = ⟨none, [c], [c], cs⟩ := by rw [Lexeme.read, hc]
  exact skip hread h

theorem mark (hc : Text.classify c = .punctuation) (hne : c ≠ '=')
    (h : Spells (braceDepth depth (some (punctuationKind c))) cs spelled) :
    Spells depth (c :: cs) ((punctuationKind c, [c]) :: spelled) := by
  have hkind : punctuationKind c ≠ .newline := by
    unfold punctuationKind
    split <;> simp
  exact token (Lexeme.read_punctuation hc hne cs) (absurd · hkind) h

theorem arrow (h : Spells depth cs spelled) :
    Spells depth ('=' :: '>' :: cs) ((.arrow, ['=', '>']) :: spelled) := by
  have hread : Lexeme.read '=' ('>' :: cs) = ⟨some .arrow, ['=', '>'], ['=', '>'], cs⟩ := rfl
  exact token hread nofun h

theorem word (hw : w.IsWord) (hx : x.StopsWord) (h : Spells depth x spelled) :
    Spells depth (w ++ x) ((.word, w) :: spelled) := by
  obtain ⟨hne, hw⟩ := hw
  obtain ⟨c, cs, rfl⟩ := List.exists_cons_of_ne_nil hne
  rw [List.forall_mem_cons] at hw
  exact token (Lexeme.read_word hw.1 hw.2 hx) nofun h

end Spells

/-! ## Lists of pieces -/

/-- The piece of a text spells these tokens wherever no character of a segment follows it. -/
def Chunk (depth : Nat) (x : Text) (spelled : List (TokenKind × Text)) : Prop :=
  ∀ {rest after}, rest.StopsWord → Spells depth rest after →
    Spells depth (x ++ rest) (spelled ++ after)

theorem Chunk.word (hw : w.IsWord) : Chunk depth w [(.word, w)] := .word hw

namespace Spells

variable {α : Type} {text : α → Text} {tokens : α → List (TokenKind × Text)} {l : List α}

/-- Pieces with a blank before each. -/
theorem spaced (hl : ∀ a ∈ l, Chunk depth (text a) (tokens a)) (hx : x.StopsWord)
    (h : Spells depth x spelled) : Text.StopsWord (l.flatMap (' ' :: text ·) ++ x) ∧
      Spells depth (l.flatMap (' ' :: text ·) ++ x) (l.flatMap tokens ++ spelled) := by
  induction l with
  | nil => exact ⟨hx, h⟩
  | cons a l ih =>
    rw [List.forall_mem_cons] at hl
    obtain ⟨hstops, hspells⟩ := ih hl.2
    rw [List.flatMap_cons, List.flatMap_cons, List.cons_append, List.cons_append, List.append_assoc,
      List.append_assoc]
    exact ⟨Text.stopsWord_cons (by decide) _, .blank rfl (hl.1 hstops hspells)⟩

/-- Pieces with a comma and a blank between each two. -/
theorem listed (hl : ∀ a ∈ l, Chunk depth (text a) (tokens a)) (hx : x.StopsWord)
    (h : Spells depth x spelled) :
    Spells depth (((l.map text).intersperse [',', ' ']).flatten ++ x)
      (((l.map tokens).intersperse [(.comma, [','])]).flatten ++ spelled) := by
  induction l with
  | nil => exact h
  | cons a l ih =>
    rw [List.forall_mem_cons] at hl
    cases l with
    | nil => simpa using hl.1 hx h
    | cons b l =>
      have hrest := ih hl.2
      simp only [List.map_cons, List.intersperse_cons_cons, List.flatten_cons, List.append_assoc]
        at hrest ⊢
      exact hl.1 (Text.stopsWord_cons (by decide) _) (.mark rfl (by decide) (.blank rfl hrest))

end Spells

end Token

end SoundChange
