import SoundChange.Proofs.Statement.Spelling

/-!
# Declarations of categories

`Category.spell` are the tokens of a declaration: what the displayed category is cut into
(`Category.spells_display`), and what the category is read from (`Category.read_spell`). So a
category that is displayed is read back, whatever it includes, if its name, its members and the
names of what it includes are words and no member is known as a category
(`Category.Writable.readFrom_display`); such a member would be read as an inclusion.
-/

namespace SoundChange

open Token (Spells Chunk lexed tokenizeFrom)

variable {depth : Nat} {p : Position} {char : Char} {cs : Text} {e : Token} {rest ts : List Token}
  {kind : TokenKind} {spelled : List (TokenKind × Text)} {known : List Text} {ref : SetRef}
  {refs : List SetRef} {c : Category}

/-! ## Sets that are read -/

theorem SortedSet.mem_foldl_insert {α : Type} [Ranked α] {l : List α} {s : SortedSet α} {a : α} :
    a ∈ l.foldl (fun s a => s.insert a) s ↔ a ∈ l ∨ a ∈ s := by
  induction l generalizing s with
  | nil => simp
  | cons b l ih => simp [ih, or_assoc, or_left_comm]

/-- The elements of a set, put into the empty one, make the set. -/
theorem SortedSet.foldl_insert_empty {α : Type} [Ranked α] (s : SortedSet α) :
    s.toList.foldl (fun s a => s.insert a) .empty = s :=
  SortedSet.ext fun _ => by rw [mem_foldl_insert, or_iff_left not_mem_empty, mem_def]

/-! ## Declarations in a file -/

theorem Reading.declared_endOfFile {α : Type} (production : Production) (a : α)
    (he : e.kind = .endOfFile) : declared production a [e] = ⟨.ok a, [e]⟩ := by
  rw [declared, if_pos (.inr he), finish, if_neg (by simp [he])]

theorem Token.exists_lexed_cons (hk : (Lexeme.read char cs).kind = some kind)
    (hkind : kind ≠ .newline) (depth : Nat) (p : Position) :
    ∃ t ts, lexed depth p (char :: cs) = t :: ts ∧ t.kind = kind ∧ t.position = p := by
  rw [lexed, ofLexeme?, hk]
  dsimp only
  rw [if_neg fun hline => hkind hline.1]
  exact ⟨_, _, rfl, rfl, rfl⟩

/-- The last statement of a file, if it is read from its tokens wherever these stand. -/
theorem Statement.readFrom_spelled {s : Statement} (hk : (Lexeme.read char cs).kind = some kind)
    (hkind : kind ≠ .newline) (hspells : Spells 0 (char :: cs) spelled)
    (hread : ∀ ts e, ts.map Token.lexical = spelled → e.kind = .endOfFile →
      read known (ts ++ [e]) = ⟨.ok s, [e]⟩) :
    readFrom known (tokenizeFrom 0 p (char :: cs)) = [⟨p.line, .ok s⟩] := by
  obtain ⟨t, ts, htokens, htkind, rfl⟩ := Token.exists_lexed_cons hk hkind 0 p
  have ht : ¬ t.EndsLine := Token.not_endsLine_of_kind htkind
    ⟨hkind, fun h => Lexeme.kind_ne_endOfFile (h ▸ hk)⟩
  have hentry := hread _ (.eof (t.position.after (char :: cs))) (hspells t.position) rfl
  rw [htokens, List.cons_append] at hentry
  rw [Token.tokenizeFrom_eq, htokens, List.cons_append, readFrom_cons known ht, hentry,
    readFrom_endOfFile rfl]

/-! ## Spelling -/

/-- The name that is referred to. -/
def SetRef.name : SetRef → Text
  | category name => name
  | feature _ name => name

theorem SetRef.chunk_display (href : ref.name.IsWord) : Chunk depth ref.display ref.spell := by
  cases ref with
  | category name => exact .word href
  | feature present name =>
    intro rest after hrest h
    cases present with
    | true => exact .mark rfl (by decide) (.word href hrest h)
    | false => exact .mark rfl (by decide) (.word href hrest h)

/-- A reference between brackets. -/
theorem SetRef.chunk_bracketed (href : ref.name.IsWord) :
    Chunk depth ('[' :: ref.display ++ [']']) (Element.set ref).spell := by
  intro rest after hrest h
  have hclose : Spells depth (']' :: rest) ((.closeBracket, [']']) :: after) :=
    .mark rfl (by decide) h
  have href := ref.chunk_display href (Text.stopsWord_cons (by decide) rest) hclose
  simp only [Element.spell, List.cons_append, List.append_assoc]
  exact .mark rfl (by decide) href

namespace Category

/-- The tokens of what stands between the braces. -/
def spellMembers (c : Category) : List (TokenKind × Text) :=
  c.members.toList.flatMap (fun w => [(.word, w)]) ++
    c.includes.flatMap (fun ref => (Element.set ref).spell)

/-- The tokens of the declaration. -/
def spell (c : Category) : List (TokenKind × Text) :=
  (.word, c.name) :: (.openBrace, ['\x7b']) :: (c.spellMembers ++ [(.closeBrace, ['\x7d'])])

/-- The name, the members and the names of what is included are words, and no member is known as a
category. -/
structure Writable (known : List Text) (c : Category) : Prop where
  name : c.name.IsWord
  members : ∀ w ∈ c.members, w.IsWord ∧ w ∉ known
  includes : ∀ ref ∈ c.includes, ref.name.IsWord

theorem spells_display (h : c.Writable known) : Spells 0 c.display c.spell := by
  have hclose : Spells 1 [' ', '\x7d'] [(.closeBrace, ['\x7d'])] :=
    .blank rfl (.mark rfl (by decide) .nil)
  obtain ⟨hstops, hincludes⟩ := Spells.spaced
    (fun ref href => SetRef.chunk_bracketed (h.includes ref href))
    (Text.stopsWord_cons (by decide) _) hclose
  obtain ⟨-, hmembers⟩ := Spells.spaced (fun w hw => Chunk.word (h.members w hw).1) hstops hincludes
  have hopen : Spells 0 (' ' :: '\x7b' :: _) ((.openBrace, ['\x7b']) :: _) :=
    .blank rfl (.mark rfl (by decide) hmembers)
  have hname := Spells.word h.name (Text.stopsWord_cons (by decide) _) hopen
  simpa [display, spell, spellMembers] using hname

/-! ## Reading -/

/-- Words that are not known are read as members. -/
theorem readMembers_words {ws : List Text} (hws : ∀ w ∈ ws, w ∉ known)
    (hts : ts.map Token.lexical = ws.flatMap fun w => [(.word, w)]) (c : Category) :
    c.readMembers known none (ts ++ rest) =
      (ws.foldl addMember c).readMembers known none rest := by
  induction ws generalizing c ts with
  | nil =>
    rw [List.flatMap_nil, List.map_eq_nil_iff] at hts
    subst hts
    rfl
  | cons w ws ih =>
    rw [List.forall_mem_cons] at hws
    rw [List.flatMap_cons, List.singleton_append, List.map_eq_cons_iff] at hts
    obtain ⟨t, ts, rfl, ht, hts⟩ := hts
    obtain ⟨hkind, rfl⟩ := Token.lexical_eq_iff.mp ht
    rw [List.cons_append, readMembers, hkind]
    dsimp only
    rw [if_neg hws.1, ih hws.2 hts]
    rfl

/-- What is read between brackets is read by the category. -/
theorem readMembers_bracket {b b' : Bracket} (h : b.Run ts b') (c : Category) :
    c.readMembers known (some b) (ts ++ rest) = c.readMembers known (some b') rest := by
  induction h with
  | nil => rfl
  | cons hstep _ ih =>
    rw [List.cons_append, readMembers, hstep]
    exact ih

/-- A reference between brackets is read as an inclusion. -/
theorem readMembers_include (hts : ts.map Token.lexical = (Element.set ref).spell) (c : Category) :
    c.readMembers known none (ts ++ rest) = (c.addInclude ref).readMembers known none rest := by
  simp only [Element.spell, List.map_eq_cons_iff, List.map_eq_append_iff, List.map_eq_nil_iff,
    Token.lexical_eq_iff] at hts
  obtain ⟨s, _, rfl, ⟨hs, -⟩, inside, _, rfl, hinside, t, _, rfl, ⟨ht, -⟩, rfl⟩ := hts
  have hlast : Bracket.step { position := s.position, refs := [ref] } t = .done (.set ref) := by
    simp only [Bracket.step, ht, Bracket.element]
  rw [List.cons_append, readMembers, hs, List.append_assoc]
  dsimp only
  rw [readMembers_bracket (Bracket.run_ref rfl hinside), List.cons_append, readMembers,
    List.nil_append, hlast]
  rfl

/-- References between brackets are read as inclusions. -/
theorem readMembers_includes
    (hts : ts.map Token.lexical = refs.flatMap fun ref => (Element.set ref).spell) (c : Category) :
    c.readMembers known none (ts ++ rest) =
      (refs.foldl addInclude c).readMembers known none rest := by
  induction refs generalizing c ts with
  | nil =>
    rw [List.flatMap_nil, List.map_eq_nil_iff] at hts
    subst hts
    rfl
  | cons ref refs ih =>
    rw [List.flatMap_cons, List.map_eq_append_iff] at hts
    obtain ⟨front, back, rfl, hfront, hback⟩ := hts
    rw [List.append_assoc, readMembers_include hfront, ih hback]
    rfl

theorem foldl_addMember (ws : List Text) (c : Category) : ws.foldl addMember c =
    { c with members := ws.foldl (fun s w => s.insert w) c.members } := by
  induction ws generalizing c with
  | nil => rfl
  | cons w ws ih => exact ih _

theorem foldl_addInclude (refs : List SetRef) (c : Category) :
    refs.foldl addInclude c = { c with includes := c.includes ++ refs } := by
  induction refs generalizing c with
  | nil => rw [List.append_nil]; rfl
  | cons ref refs ih =>
    rw [List.foldl_cons, ih, addInclude, List.append_assoc, List.singleton_append]

/-- The tokens of a declaration are read as the category. -/
theorem read_spell (h : c.Writable known) (hts : ts.map Token.lexical = c.spell)
    (he : e.kind = .endOfFile) :
    Statement.read known (ts ++ [e]) = ⟨.ok (.category c), [e]⟩ := by
  simp only [spell, spellMembers, List.map_eq_cons_iff, List.map_eq_append_iff, List.map_eq_nil_iff,
    Token.lexical_eq_iff] at hts
  obtain ⟨name, _, rfl, ⟨hname, htext⟩, brace, _, rfl, ⟨hbrace, -⟩, _, _, rfl,
    ⟨members, includes, rfl, hmembers, hincludes⟩, close, _, rfl, ⟨hclose, -⟩, rfl⟩ := hts
  have hread : (new c.name).readMembers known none (members ++ (includes ++ [close, e])) =
      ⟨.ok c, [e]⟩ := by
    rw [readMembers_words (fun w hw => (h.members w hw).2) hmembers, readMembers_includes hincludes,
      foldl_addInclude, foldl_addMember, new, readMembers, hclose]
    dsimp only
    rw [SortedSet.foldl_insert_empty, Reading.declared_endOfFile _ _ he]
    rfl
  have hform : Statement.form (name :: brace :: (members ++ (includes ++ [close, e]))) =
      .category c.name := by
    simp [Statement.form, Token.isName, hname, hbrace, htext]
  have hcons : name :: brace :: (members ++ includes ++ [close]) ++ [e] =
      name :: brace :: (members ++ (includes ++ [close, e])) := by
    simp
  rw [hcons, Statement.read, hform]
  dsimp only
  rw [List.drop_succ_cons, List.drop_succ_cons, List.drop_zero, hread]
  rfl

/-- A displayed category is read back, wherever it stands. -/
theorem Writable.readFrom_display (h : c.Writable known) (p : Position) :
    Statement.readFrom known (tokenizeFrom 0 p c.display) = [⟨p.line, .ok (.category c)⟩] := by
  obtain ⟨hne, hname⟩ := h.name
  obtain ⟨char, cs, hcs⟩ := List.exists_cons_of_ne_nil hne
  have hdisplay : ∃ rest, c.display = char :: rest := by
    simp [display, hcs]
  obtain ⟨rest, hdisplay⟩ := hdisplay
  have hchar : Text.classify char = .segment :=
    (Text.classify_iff char).2.mpr (hname char (hcs ▸ List.mem_cons_self ..))
  have hkind : (Lexeme.read char rest).kind = some .word := by
    rw [Lexeme.read, hchar]
  have hspells := spells_display h
  rw [hdisplay] at hspells ⊢
  exact Statement.readFrom_spelled hkind (by decide) hspells fun ts e => read_spell h

theorem Writable.mono {known' : List Text} (h : c.Writable known)
    (hknown : ∀ name ∈ known', name ∈ known) : c.Writable known' where
  name := h.name
  members w hw := (h.members w hw).imp_right fun hnot hmem => hnot (hknown w hmem)
  includes := h.includes

open Statement (readFrom readAll knownAfter)

/-- A displayed category is read back and nothing else is: as a file of its own, with any categories
that are known, and behind the whole lines of a file that declare no others. -/
theorem readAll_display (h : c.Writable known) :
    readFrom known (Token.tokenize c.display) = [⟨1, .ok (.category c)⟩] ∧
    ∀ x : Text, x.WholeLines → (∀ name ∈ knownAfter [] (readAll x), name ∈ known) →
      readAll (x ++ c.display) = readAll x ++ [⟨1 + x.count '\n', .ok (.category c)⟩] := by
  refine ⟨h.readFrom_display .start, fun x hx hknown => ?_⟩
  have hlater : c.Writable (knownAfter [] (readAll x)) := h.mono hknown
  have hread := hlater.readFrom_display (Position.start.after x)
  rw [Position.line_after] at hread
  rw [readAll, Token.tokenize, Statement.readFrom_text hx]
  exact congrArg _ hread

/-- A member that is known as a category is read as an inclusion. -/
example : (readFrom [['N']] (Token.tokenize "V { N a }".toList)).map (·.result.toOption) =
    [some (.category ⟨['V'], .ofList [['a']], [.category ['N']]⟩)] := by
  cbv

/-- A category with members and with inclusions of each kind. -/
def vowels : Category where
  name := ['V']
  members := .ofList [['e'], ['a'], ['a', 'ʰ']]
  includes := [.feature false ['x'], .category ['N'], .feature true ['x'], .category ['N']]

/-- Two lines that declare categories. -/
def namedLines : Text := "N { n }\nK { k $N }\n".toList

theorem vowels_readAll_display :
    vowels.display = "V { a aʰ e [-x] [N] [+x] [N] }".toList ∧ vowels.Writable [['K'], ['N']] ∧
    namedLines.WholeLines ∧ (∀ name ∈ knownAfter [] (readAll namedLines), name ∈ [['K'], ['N']]) ∧
    readFrom [['K'], ['N']] (Token.tokenize vowels.display) = [⟨1, .ok (.category vowels)⟩] ∧
    readAll (namedLines ++ vowels.display) =
      readAll namedLines ++ [⟨3, .ok (.category vowels)⟩] := by
  have hdisplay : vowels.display = "V { a aʰ e [-x] [N] [+x] [N] }".toList := by cbv
  have hwritable : vowels.Writable [['K'], ['N']] := by
    have hwords : ∀ w ∈ [['e'], ['a'], ['a', 'ʰ']], Text.IsWord w ∧ w ∉ [['K'], ['N']] := by
      decide
    refine ⟨by decide, fun w hw => ?_, by decide⟩
    rw [vowels, SortedSet.mem_ofList] at hw
    exact hwords w hw
  have hlines : namedLines.WholeLines := ⟨.inr rfl, by cbv⟩
  have hknown : ∀ name ∈ knownAfter [] (readAll namedLines), name ∈ [['K'], ['N']] := by
    have hnames : knownAfter [] (readAll namedLines) = [['K'], ['N']] := by cbv
    rw [hnames]
    exact fun _ h => h
  obtain ⟨halone, hbehind⟩ := readAll_display hwritable
  exact ⟨hdisplay, hwritable, hlines, hknown, halone, hbehind namedLines hlines hknown⟩

end Category

end SoundChange
