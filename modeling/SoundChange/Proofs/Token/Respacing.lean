import SoundChange.Proofs.Token.Lexeme

/-!
# Respaced files

The tokens of a file can be written one behind the other with a blank after each. What a lexeme has
made a token of, written so, is a lexeme of the same kind and text
(`Lexeme.Shape.read_spelling`), and the braces open before each token are those of the file. So
the text is cut into the tokens of the file again (`Token.tokenize_respaced`).
-/

namespace SoundChange

variable {depth : Nat} {c : Char} {cs : Text} {t : Token} {lexeme : Lexeme}

namespace Token

/-- The characters that a token is written with. -/
def spelling (t : Token) : Text :=
  match t.kind with
  | .identifier => '$' :: t.text
  | .newline => ['\n']
  | _ => t.text

/-- All tokens but the end of the file, written with a blank after each. -/
def respaced (ts : List Token) : Text :=
  (ts.filter fun t => t.kind ≠ .endOfFile).flatMap fun t => t.spelling ++ [' ']

theorem spelling_of_ne (hidentifier : t.kind ≠ .identifier) (hnewline : t.kind ≠ .newline) :
    t.spelling = t.text := by
  unfold spelling
  split
  · exact absurd (by assumption) hidentifier
  · exact absurd (by assumption) hnewline
  · rfl

end Token

namespace Lexeme

open Text (classify isIdentifier)

/-- A blank ends the name of an identifier. -/
theorem read_identifier {name : Text} (hne : name ≠ []) (hname : name.Hyphenated) (rest : Text) :
    read '$' (name ++ ' ' :: rest) = ⟨some .identifier, name, '$' :: name, ' ' :: rest⟩ := by
  have hsplit : splitName (name ++ ' ' :: rest) = (name, ' ' :: rest) :=
    splitName_append_of_hyphenated hname fun _ h => by cases h; decide
  have hread : read '$' (name ++ ' ' :: rest) = identifier '$' (name ++ ' ' :: rest) := rfl
  rw [hread, identifier, hsplit]
  dsimp only
  rw [if_neg hne]
  simp [splitStop]

/-- A token that is written before a blank is read again. -/
theorem Shape.read_spelling (h : Shape c cs lexeme) (hkind : lexeme.kind = some t.kind)
    (htext : t.text = lexeme.text) (rest : Text) : ∃ d ds, t.spelling = d :: ds ∧
      read d (ds ++ ' ' :: rest) = ⟨some t.kind, t.text, t.spelling, ' ' :: rest⟩ := by
  obtain ⟨kind, text, position⟩ := t
  obtain rfl : text = lexeme.text := htext
  cases h with
  | blank | comment => cases hkind
  | newline =>
    cases hkind
    exact ⟨'\n', [], rfl, rfl⟩
  | @word c w _ hword =>
    cases hkind
    have hchars := List.forall_mem_cons.mp hword.2
    exact ⟨c, w, rfl, read_word hchars.1 hchars.2 (Text.stopsWord_cons (by decide) rest)⟩
  | @identifier name _ _ hne hname =>
    cases hkind
    exact ⟨'$', name, rfl, read_identifier hne hname rest⟩
  | arrow =>
    cases hkind
    exact ⟨'=', ['>'], rfl, rfl⟩
  | mark hc hne =>
    obtain ⟨hnewline, -, -, hidentifier⟩ := punctuationKind_ne c
    obtain rfl : punctuationKind c = kind := Option.some.inj hkind
    have hspelling : (⟨punctuationKind c, [c], position⟩ : Token).spelling = [c] :=
      Token.spelling_of_ne hidentifier hnewline
    refine ⟨c, [], hspelling, ?_⟩
    rw [hspelling]
    exact read_punctuation hc hne (' ' :: rest)
  | stray hc =>
    cases hkind
    refine ⟨c, [], rfl, ?_⟩
    rcases hc with hc | rfl | rfl
    · rw [read, hc]
      rfl
    · rfl
    · rfl

end Lexeme

namespace Token

theorem spells_respaced (depth : Nat) (p : Position) (x : Text) :
    Spells depth ((lexed depth p x).flatMap fun t => t.spelling ++ [' '])
      ((lexed depth p x).map lexical) := by
  induction depth, p, x using lexed.induct with
  | case1 depth p =>
    rw [lexed]
    exact .nil
  | case2 depth p c cs ih =>
    rw [lexed]
    rcases ofLexeme?_cases depth p (Lexeme.read c cs) with ⟨hnone, hdepth, -⟩ | ⟨t, ht⟩
    · rw [hnone, List.nil_append]
      rwa [hdepth] at ih ⊢
    · obtain ⟨hkind, htext, -, hclosed⟩ := mem_ofLexeme?.mp (ht ▸ List.mem_singleton.mpr rfl)
      obtain ⟨d, ds, hspelling, hread⟩ :=
        (Lexeme.shape_read c cs).read_spelling hkind htext
          ((lexed (braceDepth depth (Lexeme.read c cs).kind) (p.after (Lexeme.read c cs).extent)
            (Lexeme.read c cs).rest).flatMap fun t => t.spelling ++ [' '])
      rw [hkind] at ih hread ⊢
      rw [ht, List.singleton_append, List.flatMap_cons, List.map_cons, hspelling,
        List.append_assoc]
      exact .token hread hclosed (.blank rfl ih)

/-- The tokens of a file, written with a blank after each, are read again with the same kinds and
texts. -/
theorem tokenize_respaced (source : Text) :
    (tokenize (respaced (tokenize source))).map lexical = (tokenize source).map lexical := by
  have hrespaced : respaced (tokenize source) =
      (lexed 0 .start source).flatMap fun t => t.spelling ++ [' '] := by
    have hall : (lexed 0 .start source).filter (fun t => t.kind ≠ .endOfFile) =
        lexed 0 .start source :=
      List.filter_eq_self.mpr fun t ht => decide_eq_true (kind_ne_endOfFile_of_mem_lexed ht)
    rw [respaced, tokenize, tokenizeFrom_eq, List.filter_append, hall]
    exact congrArg _ (List.append_nil _)
  have hspells := spells_respaced 0 .start source .start
  rw [← hrespaced] at hspells
  rw [tokenize, tokenizeFrom_eq, List.map_append, hspells, tokenize, tokenizeFrom_eq,
    List.map_append]
  rfl

/-- A name ends where its hyphen does not go on, and a full stop behind it is not written. -/
example : respaced (tokenize "$a-b.c-\n=>;d".toList) = "$a-b c - \n => ".toList := by cbv

end Token

end SoundChange
