import SoundChange.Proofs.Token.Spelling
import Mathlib

/-!
# What a lexeme can be

`Lexeme.Shape` lists what the first piece of a text can be, with the characters that it covers and
what may follow it; each lexeme that is read has one of these shapes (`Lexeme.shape_read`). What is
said of all tokens is read off that list.

In the name of an identifier a hyphen has a letter or digit after it (`Text.Hyphenated`). So a
hyphen that begins a name belongs to it although it has none before it, and all other hyphens stand
between two of them (`Token.text_of_identifier`).
-/

namespace SoundChange

variable {depth : Nat} {p : Position} {c : Char} {cs w x rest name stop : Text} {t : Token}

/-! ## Names -/

namespace Text

/-- Letters, digits and hyphens, and no hyphen without a letter or digit after it. -/
def Hyphenated (w : Text) : Prop :=
  (∀ c ∈ w, isIdentifier c = true) ∧
    ∀ x y, w = x ++ '-' :: y → y.head?.any Char.isAlphanum = true

/-- Each hyphen stands between two letters or digits. -/
def InnerHyphens (w : Text) : Prop :=
  ∀ x y, w = x ++ '-' :: y →
    x.getLast?.any Char.isAlphanum = true ∧ y.head?.any Char.isAlphanum = true

theorem hyphenated_nil : Hyphenated [] := by
  refine ⟨nofun, fun x y h => ?_⟩
  cases x <;> cases h

theorem hyphenated_cons : Hyphenated (c :: cs) ↔ isIdentifier c = true ∧
    (c = '-' → cs.head?.any Char.isAlphanum = true) ∧ Hyphenated cs := by
  constructor
  · rintro ⟨hchars, hhyphens⟩
    rw [List.forall_mem_cons] at hchars
    refine ⟨hchars.1, fun hc => hhyphens [] cs (by rw [hc]; rfl), hchars.2, fun x y h => ?_⟩
    exact hhyphens (c :: x) y (by rw [h]; rfl)
  · rintro ⟨hc, hhyphen, hchars, hhyphens⟩
    refine ⟨List.forall_mem_cons.mpr ⟨hc, hchars⟩, fun x y h => ?_⟩
    cases x with
    | nil =>
      obtain ⟨rfl, rfl⟩ := List.cons.inj h
      exact hhyphen rfl
    | cons d x => exact hhyphens x y (List.cons.inj h).2

theorem isIdentifier_iff : isIdentifier c = true ↔ c.isAlphanum = true ∨ c = '-' := by
  rw [isIdentifier, Bool.or_eq_true, decide_eq_true_eq]

/-- A hyphen behind the first character has a letter or digit before it: what stands there is no
hyphen, because that would have the hyphen after it. -/
theorem Hyphenated.isAlphanum_before (h : w.Hyphenated) {x y : Text} (hw : w = x ++ '-' :: y) :
    x = [] ∨ x.getLast?.any Char.isAlphanum = true := by
  rcases List.eq_nil_or_concat x with rfl | ⟨x, d, rfl⟩
  · exact .inl rfl
  · rw [List.concat_eq_append] at hw ⊢
    refine .inr ?_
    rw [List.getLast?_concat, Option.any_some]
    have hd : d ∈ w := by simp [hw]
    refine (isIdentifier_iff.mp (h.1 d hd)).resolve_right fun hhyphen => ?_
    have hafter := h.2 x ('-' :: y) (by simp [hw, hhyphen])
    exact absurd hafter Bool.false_ne_true

theorem Hyphenated.innerHyphens_iff (h : w.Hyphenated) :
    w.InnerHyphens ↔ w.head? ≠ some '-' := by
  constructor
  · intro hinner hhead
    obtain ⟨y, rfl⟩ := List.head?_eq_some_iff.mp hhead
    exact absurd (hinner [] y rfl).1 (by decide)
  · rintro hhead x y rfl
    refine ⟨(h.isAlphanum_before rfl).resolve_left ?_, h.2 x y rfl⟩
    rintro rfl
    exact hhead rfl

end Text

namespace Lexeme

open Text (classify isSegment isIdentifier)

theorem head?_splitName (h : cs.head?.any Char.isAlphanum = true) :
    (splitName cs).1.head? = cs.head? := by
  cases cs with
  | nil => rfl
  | cons c cs =>
    have hc : c.isAlphanum = true := h
    have hname : (isIdentifier c && (c != '-' || cs.head?.any Char.isAlphanum)) = true := by
      have hne : c ≠ '-' := by
        rintro rfl
        exact absurd hc (by decide)
      simp [isIdentifier, hc, hne]
    rw [splitName, if_pos hname]
    rfl

theorem hyphenated_splitName (cs : Text) : (splitName cs).1.Hyphenated := by
  induction cs with
  | nil => exact Text.hyphenated_nil
  | cons c cs ih =>
    rw [splitName]
    split
    · rename_i hc
      rw [Bool.and_eq_true, Bool.or_eq_true, bne_iff_ne] at hc
      refine Text.hyphenated_cons.mpr ⟨hc.1, fun hhyphen => ?_, ih⟩
      have hnext := hc.2.resolve_left (not_not_intro hhyphen)
      rwa [head?_splitName hnext]
    · exact Text.hyphenated_nil

/-- A name is read as a whole if no character that could belong to it follows. -/
theorem splitName_append_of_hyphenated (hname : name.Hyphenated)
    (hrest : ∀ c ∈ rest.head?, isIdentifier c = false) :
    splitName (name ++ rest) = (name, rest) := by
  induction name with
  | nil =>
    cases rest with
    | nil => rfl
    | cons c cs =>
      rw [List.nil_append, splitName, hrest c rfl]
      rfl
  | cons c cs ih =>
    obtain ⟨hc, hhyphen, hcs⟩ := Text.hyphenated_cons.mp hname
    have hgoes :
        (isIdentifier c && (c != '-' || (cs ++ rest).head?.any Char.isAlphanum)) = true := by
      rw [hc, Bool.true_and, Bool.or_eq_true, bne_iff_ne]
      by_cases hne : c = '-'
      · have hnext := hhyphen hne
        cases cs with
        | nil => cases hnext
        | cons => exact .inr hnext
      · exact .inl hne
    rw [List.cons_append, splitName, if_pos hgoes, ih hcs]

/-! ## Shapes -/

/-- What the first piece of a text can be that begins with some character and goes on in some
way. -/
inductive Shape : Char → Text → Lexeme → Prop
  | blank {c : Char} {rest : Text} (hc : classify c = .blank) :
    Shape c rest ⟨none, [c], [c], rest⟩
  /-- A comment goes on to the end of its line. -/
  | comment {body rest : Text} (hbody : '\n' ∉ body) (hrest : ∀ d ∈ rest.head?, d = '\n') :
    Shape ';' (body ++ rest) ⟨none, ';' :: body, ';' :: body, rest⟩
  | newline {rest : Text} : Shape '\n' rest ⟨some .newline, ['\n'], ['\n'], rest⟩
  | word {c : Char} {cs rest : Text} (hword : Text.IsWord (c :: cs)) (hrest : rest.StopsWord) :
    Shape c (cs ++ rest) ⟨some .word, c :: cs, c :: cs, rest⟩
  /-- A full stop behind an identifier is taken with it. -/
  | identifier {name stop rest : Text} (hne : name ≠ []) (hname : name.Hyphenated)
    (hstop : stop = [] ∨ stop = ['.']) :
    Shape '$' (name ++ (stop ++ rest)) ⟨some .identifier, name, '$' :: (name ++ stop), rest⟩
  | arrow {rest : Text} :
    Shape '=' ('>' :: rest) ⟨some .arrow, ['=', '>'], ['=', '>'], rest⟩
  | mark {c : Char} {rest : Text} (hc : classify c = .punctuation) (hne : c ≠ '=') :
    Shape c rest ⟨some (punctuationKind c), [c], [c], rest⟩
  /-- A character without a use, or a sigil or equals sign without what makes it one. -/
  | stray {c : Char} {rest : Text} (hc : classify c = .unknown ∨ c = '$' ∨ c = '=') :
    Shape c rest ⟨some .stray, [c], [c], rest⟩

/-- What a class with a single character says of a character in it. -/
theorem eq_of_classify (c : Char) : (classify c = .comment → c = ';') ∧
    (classify c = .sigil → c = '$') := by
  unfold classify
  repeat' split
  all_goals simp_all

theorem head?_dropWhile {f : Char → Bool} (cs : Text) :
    ∀ d ∈ (cs.dropWhile f).head?, f d = false := by
  intro d hd
  have h := List.head?_dropWhile_not f cs
  rw [Option.mem_def.mp hd] at h
  simpa using h

theorem shape_identifier (cs : Text) : Shape '$' cs (identifier '$' cs) := by
  rw [identifier]
  have hstop : (splitStop (splitName cs).2).1 = [] ∨ (splitStop (splitName cs).2).1 = ['.'] := by
    unfold splitStop
    split
    · exact .inr rfl
    · exact .inl rfl
  have hcs : (splitName cs).1 ++
      ((splitStop (splitName cs).2).1 ++ (splitStop (splitName cs).2).2) = cs := by
    rw [splitStop_append, splitName_append]
  have hname := hyphenated_splitName cs
  split
  · exact .stray (.inr (.inl rfl))
  · rename_i hne
    have hshape := @Shape.identifier _ _ (splitStop (splitName cs).2).2 hne hname hstop
    rwa [hcs] at hshape

theorem shape_punctuation (hc : classify c = .punctuation) (cs : Text) :
    Shape c cs (punctuation c cs) := by
  unfold punctuation
  split
  · exact .arrow
  · by_cases hne : c = '='
    · subst hne
      exact .stray (.inr (.inr rfl))
    · exact .mark hc hne

theorem shape_read (c : Char) (cs : Text) : Shape c cs (read c cs) := by
  unfold read
  split
  · exact .blank (by assumption)
  · obtain rfl := eq_newline_of_classify (c := c) (by assumption)
    exact .newline
  · obtain rfl := (eq_of_classify c).1 (by assumption)
    have hbody : '\n' ∉ cs.takeWhile (· != '\n') := fun hmem => by
      simpa using List.all_eq_true.mp List.all_takeWhile _ hmem
    have hshape := @Shape.comment _ (cs.dropWhile (· != '\n')) hbody
      fun d hd => by simpa using head?_dropWhile cs d hd
    rwa [List.takeWhile_append_dropWhile] at hshape
  · obtain rfl := (eq_of_classify c).2 (by assumption)
    exact shape_identifier cs
  · rename_i hc
    have hcs : ∀ d ∈ cs.takeWhile isSegment, Text.IsLetter d := fun d hd =>
      Text.isSegment_iff.mp (List.all_eq_true.mp List.all_takeWhile d hd)
    have hword : Text.IsWord (c :: cs.takeWhile isSegment) :=
      ⟨nofun, List.forall_mem_cons.mpr ⟨(Text.classify_iff c).2.mp hc, hcs⟩⟩
    have hstops : Text.StopsWord (cs.dropWhile isSegment) := fun d hd hletter =>
      Bool.false_ne_true ((head?_dropWhile cs d hd).symm.trans (Text.isSegment_iff.mpr hletter))
    have hshape := Shape.word hword hstops
    rwa [List.takeWhile_append_dropWhile] at hshape
  · exact shape_punctuation (by assumption) cs
  · exact .stray (.inl (by assumption))

/-- The kinds of tokens that are no single mark. -/
theorem punctuationKind_ne (c : Char) : punctuationKind c ≠ .newline ∧
    punctuationKind c ≠ .endOfFile ∧ punctuationKind c ≠ .word ∧
      punctuationKind c ≠ .identifier := by
  unfold punctuationKind
  split <;> decide

end Lexeme

namespace Token

/-- A token of a text is that of a lexeme. -/
theorem exists_shape_of_mem_lexed (h : t ∈ lexed depth p x) :
    ∃ c cs lexeme, Lexeme.Shape c cs lexeme ∧ lexeme.kind = some t.kind ∧ t.text = lexeme.text := by
  induction depth, p, x using lexed.induct with
  | case1 depth p =>
    rw [lexed] at h
    cases h
  | case2 depth p c cs ih =>
    rw [lexed, List.mem_append] at h
    refine h.elim (fun h => ?_) ih
    obtain ⟨hkind, htext, -⟩ := mem_ofLexeme?.mp h
    exact ⟨c, cs, _, Lexeme.shape_read c cs, hkind, htext⟩

theorem hyphenated_of_mem_lexed (h : t ∈ lexed depth p x) (hkind : t.kind = .identifier) :
    t.text ≠ [] ∧ t.text.Hyphenated := by
  obtain ⟨c, cs, lexeme, hshape, hlexeme, htext⟩ := exists_shape_of_mem_lexed h
  rw [hkind] at hlexeme
  rw [htext]
  cases hshape with
  | identifier hne hname hstop => exact ⟨hne, hname⟩
  | mark => exact absurd (Option.some.inj hlexeme) (Lexeme.punctuationKind_ne c).2.2.2
  | _ => cases hlexeme

theorem mem_lexed_of_mem_tokenize {source : Text} (h : t ∈ tokenize source)
    (hkind : t.kind ≠ .endOfFile) : t ∈ lexed 0 .start source := by
  rw [tokenize, tokenizeFrom_eq, List.mem_append, List.mem_singleton] at h
  exact h.resolve_right fun heof => hkind (heof ▸ rfl)

/-- The name of an identifier is made of letters, digits and hyphens. A hyphen has a letter or digit
after it, and one before it unless it begins the name; so all hyphens are inner ones if and only if
the name does not begin with one. -/
theorem text_of_identifier {source : Text} (h : t ∈ tokenize source)
    (hkind : t.kind = .identifier) :
    t.text ≠ [] ∧ (∀ c ∈ t.text, c.isAlphanum = true ∨ c = '-') ∧
      (∀ x y, t.text = x ++ '-' :: y → y.head?.any Char.isAlphanum = true ∧
        (x = [] ∨ x.getLast?.any Char.isAlphanum = true)) ∧
      (t.text.InnerHyphens ↔ t.text.head? ≠ some '-') := by
  have hmem := mem_lexed_of_mem_tokenize h (by rw [hkind]; exact nofun)
  obtain ⟨hne, hname⟩ := hyphenated_of_mem_lexed hmem hkind
  refine ⟨hne, fun c hc => Text.isIdentifier_iff.mp (hname.1 c hc), fun x y hw => ?_,
    hname.innerHyphens_iff⟩
  exact ⟨hname.2 x y hw, hname.isAlphanum_before hw⟩

theorem frontVowel_text_of_identifier :
    let t : Token := ⟨.identifier, "front-V".toList, .start⟩
    t ∈ tokenize "$front-V.-".toList ∧ t.kind = .identifier ∧ t.text.InnerHyphens := by
  intro t
  have htokens : tokenize "$front-V.-".toList =
      [t, ⟨.minus, ['-'], ⟨1, 10⟩⟩, .eof ⟨1, 11⟩] := by cbv
  have hmem : t ∈ tokenize "$front-V.-".toList := htokens ▸ List.mem_cons_self ..
  exact ⟨hmem, rfl, (text_of_identifier hmem rfl).2.2.2.mpr (by decide)⟩

/-- A hyphen directly behind the sigil is taken for the beginning of a name. -/
theorem leading_hyphen_in_name :
    let t : Token := ⟨.identifier, "-a".toList, .start⟩
    t ∈ tokenize "$-a".toList ∧ ¬ t.text.InnerHyphens := by
  intro t
  have htokens : tokenize "$-a".toList = [t, .eof ⟨1, 4⟩] := by cbv
  refine ⟨htokens ▸ List.mem_cons_self .., fun hinner => ?_⟩
  exact absurd (hinner [] ['a'] rfl).1 Bool.false_ne_true

end Token

end SoundChange
