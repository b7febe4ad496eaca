import SoundChange.Proofs.Token.Lexeme

/-!
# The tokens of a file tile it

A file is its tokens in order, each with the characters that it covers, and what is skipped before
each and behind the last one (`Tiling`). Skipped are blanks, comments, and line feeds within braces
(`Gap`); what a token covers is its text, or for an identifier its name with a sigil and a full stop
(`Token.Covers`). A token stands where it begins to cover, counted in lines and characters, and a
line feed is a token if and only if the tokens before it have left no brace open
(`Token.tokenize_tiles`).
-/

namespace SoundChange

variable {depth : Nat} {p q r : Position} {x y cs piece rest last : Text} {c : Char} {t : Token}
  {kind : TokenKind} {lexeme : Lexeme}

/-! ## Places in order -/

namespace Position

/-- The place behind a text: the line feeds in it are counted, and the characters behind the last
one. -/
def behind (x : Text) : Position :=
  ⟨1 + x.count '\n', 1 + (x.reverse.takeWhile (· ≠ '\n')).length⟩

/-- The first place is on a higher line, or on the same one further to the left. -/
def Before (p q : Position) : Prop := p.line < q.line ∨ p.line = q.line ∧ p.column < q.column

instance (p q : Position) : Decidable (p.Before q) :=
  inferInstanceAs (Decidable (p.line < q.line ∨ p.line = q.line ∧ p.column < q.column))

theorem Before.trans (hpq : p.Before q) (hqr : q.Before r) : p.Before r := by
  unfold Before at *
  omega

theorem Before.asymm (h : p.Before q) : ¬ q.Before p := by
  unfold Before at *
  omega

theorem before_next (p : Position) (c : Char) : p.Before (p.next c) := by
  unfold next
  split
  · exact .inl (Nat.lt_succ_self _)
  · exact .inr ⟨rfl, Nat.lt_succ_self _⟩

theorem before_after_cons (p : Position) (c : Char) (cs : Text) : p.Before (p.after (c :: cs)) := by
  induction cs generalizing p c with
  | nil => exact p.before_next c
  | cons d cs ih => exact (p.before_next c).trans (ih (p.next c) d)

theorem after_start (x : Text) : start.after x = behind x := by
  induction hn : x.length generalizing x with
  | zero => rw [List.length_eq_zero_iff.mp hn]; rfl
  | succ n ih =>
    obtain ⟨z, c, rfl⟩ : ∃ z c, x = z ++ [c] :=
      ⟨_, _, (List.dropLast_concat_getLast (List.ne_nil_of_length_eq_add_one hn)).symm⟩
    have hz : z.length = n := by simpa using hn
    have hlast : (behind z).after [c] = (behind z).next c := rfl
    rw [after_append, ih z hz, hlast, next, behind, behind, List.count_append,
      List.reverse_append, List.reverse_singleton, List.singleton_append, List.takeWhile_cons]
    by_cases hc : c = '\n'
    · simp [hc, Nat.add_comm]
    · simp [hc, Nat.add_comm]

end Position

namespace Token

/-- A token stands where a part of the text ends that is not all of it. -/
theorem position_of_mem_lexed (h : t ∈ lexed depth p x) :
    ∃ y c z, x = y ++ c :: z ∧ t.position = p.after y := by
  induction depth, p, x using lexed.induct with
  | case1 depth p =>
    rw [lexed] at h
    cases h
  | case2 depth p c cs ih =>
    rw [lexed, List.mem_append] at h
    rcases h with h | h
    · exact ⟨[], c, cs, rfl, (mem_ofLexeme?.mp h).2.2.1⟩
    · obtain ⟨y, d, z, hrest, hposition⟩ := ih h
      refine ⟨(Lexeme.read c cs).extent ++ y, d, z, ?_, ?_⟩
      · rw [List.append_assoc, ← hrest, Lexeme.extent_append_rest]
      · rw [hposition, Position.after_append]

theorem before_of_mem_lexed (h : t ∈ lexed depth p x) : t.position.Before (p.after x) := by
  obtain ⟨y, c, z, rfl, hposition⟩ := position_of_mem_lexed h
  rw [hposition, Position.after_append]
  exact Position.before_after_cons ..

theorem before_of_mem_tokenizeFrom (h : t ∈ tokenizeFrom depth (p.after [c]) x) :
    p.Before t.position := by
  obtain ⟨y, hposition⟩ : ∃ y, t.position = (p.after [c]).after y := by
    rw [tokenizeFrom_eq, List.mem_append, List.mem_singleton] at h
    rcases h with h | rfl
    · obtain ⟨y, _, _, _, hposition⟩ := position_of_mem_lexed h
      exact ⟨y, hposition⟩
    · exact ⟨x, rfl⟩
  rw [hposition, ← Position.after_append]
  exact Position.before_after_cons ..

/-- A token that a line feed makes. -/
theorem mem_lexed_newline : t ∈ lexed depth p ['\n'] ↔
    t = ⟨.newline, ['\n'], p⟩ ∧ depth = 0 := by
  by_cases hdepth : depth = 0
  · simp [hdepth, lexed_newline]
  · simp [hdepth, lexed_newline_open]

/-- The tokens before a line feed are those of the text before it. -/
theorem filter_before_tokenize (x y : Text) :
    (tokenize (x ++ '\n' :: y)).filter (fun t => t.position.Before (Position.start.after x)) =
      lexed 0 .start x := by
  have hbefore : (lexed 0 .start x).filter
      (fun t => t.position.Before (Position.start.after x)) = lexed 0 .start x :=
    List.filter_eq_self.mpr fun t ht => decide_eq_true (before_of_mem_lexed ht)
  have hline : (lexed (depthAfter 0 x) (Position.start.after x) ['\n']).filter
      (fun t => t.position.Before (Position.start.after x)) = [] := by
    refine List.filter_eq_nil_iff.mpr fun t ht hself => ?_
    rw [(mem_lexed_newline.mp ht).1] at hself
    exact (of_decide_eq_true hself).asymm (of_decide_eq_true hself)
  have hafter : (tokenizeFrom (depthAfter 0 x) ((Position.start.after x).after ['\n']) y).filter
      (fun t => t.position.Before (Position.start.after x)) = [] :=
    List.filter_eq_nil_iff.mpr fun t ht hself =>
      (before_of_mem_tokenizeFrom ht).asymm (of_decide_eq_true hself)
  rw [tokenize, tokenizeFrom_append_newline, tokenizeFrom_newline, List.filter_append,
    List.filter_append, hbefore, hline, hafter, List.append_nil, List.append_nil]

/-! ## Braces -/

/-- The number of open braces behind some tokens; a closing brace too many is ignored. -/
def openBraces (depth : Nat) (ts : List Token) : Nat :=
  ts.foldl (fun depth t => braceDepth depth (some t.kind)) depth

theorem openBraces_append (depth : Nat) (ts us : List Token) :
    openBraces depth (ts ++ us) = openBraces (openBraces depth ts) us := List.foldl_append

theorem openBraces_ofLexeme? (depth : Nat) (p : Position) (lexeme : Lexeme) :
    openBraces depth (ofLexeme? depth p lexeme) = braceDepth depth lexeme.kind := by
  rcases ofLexeme?_cases depth p lexeme with ⟨hnone, hdepth, -⟩ | ⟨t, ht⟩
  · rw [hnone, hdepth]
    rfl
  · have hkind := kind_of_mem_ofLexeme? (ht ▸ List.mem_singleton.mpr rfl)
    rw [ht, hkind]
    rfl

theorem openBraces_lexed (depth : Nat) (p : Position) (x : Text) :
    openBraces depth (lexed depth p x) = depthAfter depth x := by
  induction depth, p, x using lexed.induct with
  | case1 depth p =>
    rw [lexed, depthAfter]
    rfl
  | case2 depth p c cs ih => rw [lexed, depthAfter, openBraces_append, openBraces_ofLexeme?, ih]

/-- A line feed is a token if and only if the tokens before it have left no brace open. -/
theorem newline_mem_tokenize (x y : Text) :
    ⟨.newline, ['\n'], .behind x⟩ ∈ tokenize (x ++ '\n' :: y) ↔ openBraces 0
      ((tokenize (x ++ '\n' :: y)).filter fun t => t.position.Before (.behind x)) = 0 := by
  have hself (p : Position) : ¬ p.Before p := fun h => h.asymm h
  rw [← Position.after_start, filter_before_tokenize, openBraces_lexed, tokenize,
    tokenizeFrom_append_newline, tokenizeFrom_newline, List.mem_append, List.mem_append]
  constructor
  · -- no other token stands where the line feed does
    rintro (h | h | h)
    · exact absurd (before_of_mem_lexed h) (hself _)
    · exact (mem_lexed_newline.mp h).2
    · exact absurd (before_of_mem_tokenizeFrom h) (hself _)
  · exact fun hclosed => .inr (.inl (mem_lexed_newline.mpr ⟨rfl, hclosed⟩))

end Token

/-! ## Tiles -/

/-- A piece of a text that makes no token, inside `depth` braces and in front of `rest`. -/
inductive Skipped (depth : Nat) (rest : Text) : Text → Prop
  | blank {c : Char} (hc : Text.IsSpace c) : Skipped depth rest [c]
  | comment {body : Text} (hbody : '\n' ∉ body) (hrest : ∀ d ∈ rest.head?, d = '\n') :
    Skipped depth rest (';' :: body)
  | newline (hopen : depth ≠ 0) : Skipped depth rest ['\n']

/-- A text of such pieces. -/
inductive Gap (depth : Nat) (rest : Text) : Text → Prop
  | nil : Gap depth rest []
  | cons {piece gap : Text} (hpiece : Skipped depth (gap ++ rest) piece)
    (hgap : Gap depth rest gap) : Gap depth rest (piece ++ gap)

/-- The characters are those of a token: its text, or the name of an identifier behind a sigil and
perhaps before a full stop. -/
def Token.Covers (t : Token) (extent : Text) : Prop :=
  if t.kind = .identifier then ∃ stop ∈ [[], ['.']], extent = '$' :: (t.text ++ stop)
  else extent = t.text

/-- A token, the characters that it covers, and those skipped before them. -/
structure Tile where
  gap : Text
  token : Token
  extent : Text

namespace Tile

/-- The characters of a tile. -/
def text (tile : Tile) : Text := tile.gap ++ tile.extent

/-- The tile is one of a file, inside `depth` braces and in front of `rest`. -/
structure Fits (tile : Tile) (depth : Nat) (rest : Text) : Prop where
  gap : Gap depth (tile.extent ++ rest) tile.gap
  covers : tile.token.Covers tile.extent
  extent_ne_nil : tile.extent ≠ []
  kind_ne_endOfFile : tile.token.kind ≠ .endOfFile
  mem_extent_iff : '\n' ∈ tile.extent ↔ tile.token.kind = .newline
  newline : tile.token.kind = .newline → tile.extent = ['\n'] ∧ depth = 0
  word : tile.token.kind = .word → tile.token.text.IsWord ∧ rest.StopsWord

end Tile

namespace Lexeme.Shape

open Text (classify isSegment isIdentifier)

variable (h : Shape c cs lexeme)

include h

/-- No token but that of a line feed covers one. -/
theorem mem_extent_iff (hkind : lexeme.kind = some kind) :
    '\n' ∈ lexeme.extent ↔ kind = .newline := by
  have hpunctuation (c : Char) : punctuationKind c ≠ .newline := (punctuationKind_ne c).1
  cases h with
  | blank | comment => cases hkind
  | newline =>
    cases hkind
    exact iff_of_true (List.mem_singleton.mpr rfl) rfl
  | word hword =>
    cases hkind
    refine iff_of_false (fun hmem => ?_) nofun
    exact absurd (hword.2 '\n' hmem) (by decide)
  | identifier hne hname hstop =>
    cases hkind
    refine iff_of_false (fun hmem => ?_) nofun
    rw [List.mem_cons, List.mem_append] at hmem
    rcases hmem with hmem | hmem | hmem
    · cases hmem
    · exact absurd (hname.1 '\n' hmem) (by decide)
    · rcases hstop with rfl | rfl
      · cases hmem
      · exact absurd hmem (by decide)
  | arrow =>
    cases hkind
    have hmem : '\n' ∉ ['=', '>'] := by decide
    exact iff_of_false hmem nofun
  | mark hc =>
    obtain rfl := Option.some.inj hkind
    refine iff_of_false (fun hmem => ?_) (hpunctuation c)
    rw [← List.mem_singleton.mp hmem] at hc
    cases hc
  | stray hc =>
    cases hkind
    refine iff_of_false (fun hmem => ?_) nofun
    rw [← List.mem_singleton.mp hmem] at hc
    exact absurd hc (by decide)

theorem covers (hkind : lexeme.kind = some t.kind) (htext : t.text = lexeme.text) :
    t.Covers lexeme.extent := by
  have hpunctuation (c : Char) : punctuationKind c ≠ .identifier := (punctuationKind_ne c).2.2.2
  obtain ⟨kind, text, position⟩ := t
  obtain rfl : text = lexeme.text := htext
  cases h with
  | blank | comment => cases hkind
  | @identifier name stop _ hne hname hstop =>
    cases hkind
    exact ⟨stop, by simpa using hstop, rfl⟩
  | mark =>
    obtain rfl := Option.some.inj hkind
    exact (if_neg (hpunctuation c)).mpr rfl
  | newline | word | arrow | stray =>
    cases hkind
    exact rfl

theorem word_of_kind (hkind : lexeme.kind = some .word) :
    lexeme.text.IsWord ∧ lexeme.rest.StopsWord := by
  cases h with
  | word hword hrest => exact ⟨hword, hrest⟩
  | mark => exact absurd (Option.some.inj hkind) (punctuationKind_ne c).2.2.1
  | _ => cases hkind

theorem skipped (hskip : lexeme.kind = none ∨ lexeme.kind = some .newline ∧ depth ≠ 0) :
    Skipped depth lexeme.rest lexeme.extent := by
  cases h with
  | blank hc => exact .blank ((Text.classify_iff _).1.mp hc)
  | comment hbody hrest => exact .comment hbody hrest
  | newline => exact .newline (hskip.resolve_left nofun).2
  | mark =>
    have hkind := (hskip.resolve_left nofun).1
    exact absurd (Option.some.inj hkind) (punctuationKind_ne c).1
  | _ => exact absurd (hskip.resolve_left nofun).1 nofun

end Lexeme.Shape

theorem Tile.fits_of_mem_ofLexeme? (ht : t ∈ Token.ofLexeme? depth p (Lexeme.read c cs)) :
    (⟨[], t, (Lexeme.read c cs).extent⟩ : Tile).Fits depth (Lexeme.read c cs).rest := by
  obtain ⟨hkind, htext, -, hclosed⟩ := Token.mem_ofLexeme?.mp ht
  have hshape := Lexeme.shape_read c cs
  refine ⟨.nil, hshape.covers hkind htext, Lexeme.extent_ne_nil c cs, fun hend => ?_,
    hshape.mem_extent_iff hkind, fun hline => ⟨?_, hclosed hline⟩, fun hword => ?_⟩
  · exact Lexeme.kind_ne_endOfFile (hkind.trans (congrArg some hend))
  · obtain rfl := Lexeme.eq_newline_of_kind (hkind.trans (congrArg some hline))
    rfl
  · rw [htext]
    exact hshape.word_of_kind (hkind.trans (congrArg some hword))

/-- Tiles that a text consists of, from some place inside `depth` braces on, and what is skipped
behind the last one. -/
inductive Tiling : Nat → Position → Text → List Tile → Text → Prop
  | last {depth : Nat} {p : Position} {last : Text} (hgap : Gap depth [] last) :
    Tiling depth p last [] last
  | cons {depth : Nat} {p : Position} {tile : Tile} {rest : Text} {tiles : List Tile} {last : Text}
    (hposition : tile.token.position = p.after tile.gap) (hfits : tile.Fits depth rest)
    (hrest : Tiling (Token.braceDepth depth (some tile.token.kind)) (p.after tile.text) rest tiles
      last) :
    Tiling depth p (tile.text ++ rest) (tile :: tiles) last

namespace Tiling

variable {tiles before after : List Tile} {tile : Tile}

theorem text_eq (h : Tiling depth p x tiles last) : x = tiles.flatMap Tile.text ++ last := by
  induction h with
  | last => rfl
  | cons _ _ _ ih => rw [List.flatMap_cons, List.append_assoc, ← ih]

theorem gap_last (h : Tiling depth p x tiles last) :
    Gap (Token.openBraces depth (tiles.map Tile.token)) [] last := by
  induction h with
  | last hgap => exact hgap
  | cons _ _ _ ih => exact ih

/-- A tile among the others stands behind those before it. -/
theorem fits (h : Tiling depth p x (before ++ tile :: after) last) :
    tile.token.position = p.after (before.flatMap Tile.text ++ tile.gap) ∧
      tile.Fits (Token.openBraces depth (before.map Tile.token))
        (after.flatMap Tile.text ++ last) := by
  induction before generalizing depth p x with
  | nil =>
    cases h with
    | cons hposition hfits hrest => exact ⟨hposition, hrest.text_eq ▸ hfits⟩
  | cons b before ih =>
    cases h with
    | cons hposition hfits hrest =>
      obtain ⟨hplace, hfits⟩ := ih hrest
      rw [← Position.after_append] at hplace
      rw [List.flatMap_cons, List.append_assoc]
      exact ⟨hplace, hfits⟩

/-- A skipped piece in front goes to the first gap. -/
theorem skip (h : Tiling depth (p.after piece) x tiles last) (hpiece : Skipped depth x piece) :
    ∃ tiles' last', Tiling depth p (piece ++ x) tiles' last' ∧
      tiles'.map Tile.token = tiles.map Tile.token := by
  cases h with
  | last hgap =>
    have hgap' : Gap depth [] (piece ++ x) := .cons (by rwa [List.append_nil]) hgap
    exact ⟨[], piece ++ x, .last hgap', rfl⟩
  | @cons _ _ tile rest tiles _ hposition hfits hrest =>
    have htext : piece ++ (tile.text ++ rest) =
        (⟨piece ++ tile.gap, tile.token, tile.extent⟩ : Tile).text ++ rest := by
      simp [Tile.text]
    have hgap : Gap depth (tile.extent ++ rest) (piece ++ tile.gap) :=
      .cons (by rwa [Tile.text, List.append_assoc] at hpiece) hfits.gap
    rw [htext]
    refine ⟨_ :: tiles, last, .cons ?_ { hfits with gap := hgap } ?_, rfl⟩
    · rw [hposition, Position.after_append]
    · rwa [Tile.text, List.append_assoc, Position.after_append]

end Tiling

namespace Token

theorem exists_tiling (depth : Nat) (p : Position) (x : Text) : ∃ tiles last,
    Tiling depth p x tiles last ∧ lexed depth p x = tiles.map Tile.token := by
  induction depth, p, x using lexed.induct with
  | case1 depth p => exact ⟨[], [], .last .nil, by rw [lexed]; rfl⟩
  | case2 depth p c cs ih =>
    obtain ⟨tiles, last, htiling, htokens⟩ := ih
    have hshape := Lexeme.shape_read c cs
    rw [lexed, htokens, ← Lexeme.extent_append_rest c cs]
    rcases ofLexeme?_cases depth p (Lexeme.read c cs) with ⟨hnone, hdepth, hskip⟩ | ⟨t, ht⟩
    · rw [hdepth] at htiling
      obtain ⟨tiles', last', htiling', htokens'⟩ := htiling.skip (hshape.skipped hskip)
      exact ⟨tiles', last', htiling', by rw [hnone, htokens']; rfl⟩
    · have hmem : t ∈ ofLexeme? depth p (Lexeme.read c cs) := ht ▸ List.mem_singleton.mpr rfl
      obtain ⟨hkind, -, hposition, -⟩ := mem_ofLexeme?.mp hmem
      rw [hkind] at htiling
      exact ⟨⟨[], t, (Lexeme.read c cs).extent⟩ :: tiles, last,
        .cons hposition (Tile.fits_of_mem_ofLexeme? hmem) htiling, by rw [ht]; rfl⟩

/-- The tokens of a file but its end cover parts of it in order, and between them stands what makes
no token: within braces line feeds are skipped, outside them none is. The places of the tokens and
the braces open before them are those of the text and the tokens before. -/
theorem tokenize_tiles (source : Text) : ∃ tiles last,
    tokenize source = tiles.map Tile.token ++ [eof (.behind source)] ∧
    source = tiles.flatMap Tile.text ++ last ∧
    (∀ before tile after, tiles = before ++ tile :: after →
      tile.token.position = .behind (before.flatMap Tile.text ++ tile.gap) ∧
      tile.Fits (openBraces 0 (before.map Tile.token)) (after.flatMap Tile.text ++ last)) ∧
    Gap (openBraces 0 (tiles.map Tile.token)) [] last ∧
    ∀ x y, source = x ++ '\n' :: y → (⟨.newline, ['\n'], .behind x⟩ ∈ tokenize source ↔
      openBraces 0 ((tokenize source).filter fun t => t.position.Before (.behind x)) = 0) := by
  obtain ⟨tiles, last, htiling, htokens⟩ := exists_tiling 0 .start source
  refine ⟨tiles, last, ?_, htiling.text_eq, ?_, htiling.gap_last, ?_⟩
  · rw [tokenize, tokenizeFrom_eq, htokens, Position.after_start]
  · rintro before tile after rfl
    rw [← Position.after_start]
    exact htiling.fits
  · rintro x y rfl
    exact newline_mem_tokenize x y

/-- A closing brace too many does not count, and a comment ends before its line feed. -/
example : (tokenize "\x7d\x7b ;a\n$a.\x7d;b\n".toList).map (fun t => (t.kind, t.position)) =
    [(.closeBrace, ⟨1, 1⟩), (.openBrace, ⟨1, 2⟩), (.identifier, ⟨2, 1⟩), (.closeBrace, ⟨2, 4⟩),
      (.newline, ⟨2, 7⟩), (.endOfFile, ⟨3, 1⟩)] := by cbv

end Token

end SoundChange
