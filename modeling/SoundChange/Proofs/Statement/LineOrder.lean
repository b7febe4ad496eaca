import SoundChange.Proofs.Statement.LogicalLine

/-!
# Where logical lines stand

The tokens of a file stand in the order of its source lines, and what follows the end of a line
stands below it (`Token.pairwise_tokenize`). The logical lines of a file are parts of its tokens one
behind the other, so of two of them the first one ends above where the second one begins
(`LogicalLine.pairwise_linesOf`).
-/

namespace SoundChange

variable {depth n : Nat} {p : Position} {x source : Text} {ts : List Token} {s t : Token}
  {line : LogicalLine}

namespace Token

/-- The second token stands on the source line of the first or below, and below it if the first one
ends its line. -/
structure Before (s t : Token) : Prop where
  le : s.position.line ≤ t.position.line
  lt : s.EndsLine → s.position.line < t.position.line

theorem pairwise_ofLexeme? {lexeme : Lexeme} : (ofLexeme? depth p lexeme).Pairwise Before := by
  unfold ofLexeme?
  split
  · exact .nil
  · split
    · exact .nil
    · exact List.pairwise_singleton ..

theorem line_le_after (p : Position) (x : Text) : p.line ≤ (p.after x).line := by
  rw [Position.line_after]
  exact Nat.le_add_right ..

/-- The lexeme of a token that ends a line ends it. -/
theorem line_lt_of_endsLine {c : Char} {cs : Text}
    (h : t ∈ ofLexeme? depth p (Lexeme.read c cs)) (ht : t.EndsLine) :
    p.line < (p.after (Lexeme.read c cs).extent).line := by
  have hkind := kind_of_mem_ofLexeme? h
  rcases ht with hnewline | hend
  · rw [hnewline] at hkind
    obtain rfl := Lexeme.eq_newline_of_kind hkind
    rw [Lexeme.read_newline, Position.line_after]
    exact Nat.lt_succ_self _
  · exact absurd (hkind.trans (congrArg some hend)) Lexeme.kind_ne_endOfFile

/-- The tokens of a text stand in order, none above the place where the text begins. -/
theorem pairwise_tokenizeFrom (depth : Nat) (p : Position) (x : Text) :
    (tokenizeFrom depth p x).Pairwise Before ∧
      ∀ t ∈ tokenizeFrom depth p x, p.line ≤ t.position.line := by
  induction depth, p, x using lexed.induct with
  | case1 depth p =>
    rw [tokenizeFrom, List.forall_mem_singleton]
    exact ⟨List.pairwise_singleton .., Nat.le_refl _⟩
  | case2 depth p c cs ih =>
    rw [tokenizeFrom_cons, List.pairwise_append, List.forall_mem_append]
    have hle (t : Token) (ht : t ∈ tokenizeFrom _ _ _) :=
      (line_le_after p (Lexeme.read c cs).extent).trans (ih.2 t ht)
    refine ⟨⟨pairwise_ofLexeme?, ih.1, fun s hs t ht => ?_⟩, fun t ht => ?_, hle⟩
    · refine ⟨?_, fun hends => ?_⟩
      · rw [(mem_ofLexeme?.mp hs).2.2.1]
        exact hle t ht
      · rw [(mem_ofLexeme?.mp hs).2.2.1]
        exact (line_lt_of_endsLine hs hends).trans_le (ih.2 t ht)
    · rw [(mem_ofLexeme?.mp ht).2.2.1]

theorem pairwise_tokenize (source : Text) : (tokenize source).Pairwise Before :=
  (pairwise_tokenizeFrom 0 .start source).1

end Token

namespace LogicalLine

/-- A source line lies between the first token of a logical line and the end of it. -/
structure Covers (line : LogicalLine) (n : Nat) : Prop where
  first_le : ∃ first ∈ line.tokens.head?, first.position.line ≤ n
  le_ending : n ≤ line.ending.position.line

/-- One logical line ends above where another one begins. -/
def Above (line line' : LogicalLine) : Prop := ∀ n n', line.Covers n → line'.Covers n' → n < n'

theorem flatMap_all_linesAfter_sublist (run ts : List Token) :
    ((linesAfter run ts).flatMap all).Sublist (run ++ ts) := by
  induction ts generalizing run with
  | nil => exact List.nil_sublist _
  | cons t ts ih =>
    rw [linesAfter]
    split
    · split
      · exact ((ih []).trans (List.sublist_cons_self ..)).trans (List.sublist_append_right ..)
      · rw [List.flatMap_cons, List.append_cons run]
        exact (ih []).append_left (run ++ [t])
    · have hrest := ih (run ++ [t])
      rwa [← List.append_cons] at hrest

/-- The tokens of logical lines are tokens of the file in the same order. -/
theorem pairwise_flatMap_linesOf (source : Text) :
    ((linesOf (Token.tokenize source)).flatMap all).Pairwise Token.Before :=
  (Token.pairwise_tokenize source).sublist (flatMap_all_linesAfter_sublist [] _)

theorem ending_mem_all : line.ending ∈ line.all :=
  List.mem_append_right _ (List.mem_singleton_self _)

/-- A logical line covers the source lines of its tokens. -/
theorem covers_of_mem_all (hline : line ∈ linesOf (Token.tokenize source)) (ht : t ∈ line.all) :
    line.Covers t.position.line := by
  have hbefore := (List.pairwise_flatMap.mp (pairwise_flatMap_linesOf source)).1 line hline
  have hne := (mem_linesOf_iff.mp hline).tokens_ne_nil
  obtain ⟨tokens, ending⟩ := line
  obtain ⟨first, tokens, rfl⟩ := List.exists_cons_of_ne_nil hne
  have hfirst := (List.pairwise_cons.mp hbefore).1
  refine ⟨⟨first, rfl, ?_⟩, ?_⟩
  · rcases List.mem_cons.mp ht with rfl | ht
    · exact Nat.le_refl _
    · exact (hfirst t ht).le
  · rcases List.mem_append.mp ht with hmem | hmem
    · exact ((List.pairwise_append.mp hbefore).2.2 t hmem ending (List.mem_singleton_self _)).le
    · rw [List.mem_singleton.mp hmem]

/-- Each logical line stands above those that follow it. -/
theorem pairwise_linesOf (source : Text) : (linesOf (Token.tokenize source)).Pairwise Above := by
  refine List.Pairwise.imp_of_mem ?_
    (List.pairwise_flatMap.mp (pairwise_flatMap_linesOf source)).2
  rintro line line' hline hline' hbefore n n' ⟨-, hn⟩ ⟨⟨first, hfirst, hn'⟩, -⟩
  have hmem : first ∈ line'.all := List.mem_append_left _ (List.mem_of_mem_head? hfirst)
  have hlt := (hbefore line.ending ending_mem_all first hmem).lt (mem_linesOf_iff.mp hline).endsLine
  exact (hn.trans_lt hlt).trans_le hn'

end LogicalLine

end SoundChange
