import Mathlib
import SoundChange.Proofs.Automaton.Exploration
import SoundChange.Proofs.RuleBook.Entries
import SoundChange.Proofs.Statement.File
import SoundChange.Proofs.Statement.Known

/-!
# Statements that fail

A statement that cannot be read or carried out leaves the book as it is, and what follows it is read
as if there were blank lines in its place (`RuleBook.failed_statement_omitted`). One thing is left
of it: a category that is read but cannot be declared is known from then on, so its name no longer
stands for itself where it is a bare word (`RuleBook.failed_category_known`).
-/

namespace SoundChange.RuleBook

open Statement (Entry readAll Stands declaredCategory knownAfter)

variable {options : CompileOptions} {source before text after blank : Text} {entry : Entry}
  {d : Diagnostic} {n : Nat}

/-- The entry of a text in a file cannot be carried out, and `d` says so. -/
structure Fails (options : CompileOptions) (before text after : Text) (entry : Entry)
    (d : Diagnostic) : Prop where
  stands : Stands [] .start before text after entry
  reported : ∃ e, (compile options before).1.enter options entry = .error e ∧
    d = .ofError entry.line e

/-- No bare word after a text is read otherwise because of its entry: a category that the entry
declares was known before, or its name is no bare word of what follows. -/
def Unnoticed (before text after : Text) (entry : Entry) : Prop :=
  ∀ name ∈ declaredCategory entry.result, name ∈ knownAfter [] (readAll before) ∨
    ∀ t ∈ Token.tokenizeFrom 0 (Position.start.after (before ++ text)) after,
      t.kind = .word → t.text ≠ name

/-- Only a category can be noticed. -/
theorem unnoticed_of_forall_ne (h : ∀ c, entry.result ≠ .ok (.category c)) :
    Unnoticed before text after entry := by
  intro name hname
  unfold declaredCategory at hname
  split at hname
  · exact absurd (by assumption) (h _)
  · cases hname

/-- What a statement that fails adds to a file is its diagnostic. -/
theorem Fails.compile_eq (h : Fails options before text after entry d)
    (hunnoticed : Unnoticed before text after entry) (hblank : blank.Blanks text) :
    ∃ late, compile options (before ++ blank ++ after) =
        ((compile options (before ++ text ++ after)).1, (compile options before).2 ++ late) ∧
      (compile options (before ++ text ++ after)).2 = (compile options before).2 ++ d :: late := by
  obtain ⟨e, hfails, rfl⟩ := h.reported
  let tokens := Token.tokenizeFrom 0 (Position.start.after (before ++ text)) after
  let later := Statement.readFrom (knownAfter [] (readAll before)) tokens
  have hlater : Statement.readFrom (declaredCategory entry.result ++ knownAfter [] (readAll before))
      tokens = later := Statement.readFrom_congr (AgreeOn.append_of_forall hunnoticed)
  have hwith : readAll (before ++ text ++ after) = readAll before ++ entry :: later :=
    hlater ▸ h.stands.readFrom_eq
  have hwithout : readAll (before ++ blank ++ after) = readAll before ++ later :=
    h.stands.readFrom_blank hblank
  refine ⟨(enterAll options (compile options before).1 later).2, ?_, ?_⟩
  · rw [compile_of_readAll hwith, compile_of_readAll hwithout, enterAll_of_error hfails]
  · rw [compile_of_readAll hwith, enterAll_of_error hfails]

/-- Every diagnostic is that of a statement in the file that fails; with blank lines in its place
the file has the same laws and the other diagnostics. -/
theorem failed_statement_omitted (h : (compile options source).2[n]? = some d) :
    (∃ before text after entry, source = before ++ text ++ after ∧
      Fails options before text after entry d ∧ (compile options before).2.length = n) ∧
    ∀ before text after entry, source = before ++ text ++ after →
      Fails options before text after entry d → (compile options before).2.length = n →
      Unnoticed before text after entry → ∀ blank : Text, blank.Blanks text →
        compile options (before ++ blank ++ after) =
          ((compile options source).1, (compile options source).2.eraseIdx n) := by
  constructor
  · obtain ⟨earlier, entry, later, e, hread, hn, hfails, hd⟩ := exists_entry_of_diagnostic h
    obtain ⟨before, text, after, hsource, hstands, hbefore⟩ := Statement.exists_stands hread
    have hcompile : compile options before = enterAll options {} earlier :=
      congrArg (enterAll options {}) hbefore
    refine ⟨before, text, after, entry, hsource, ⟨hstands, e, ?_, hd⟩, ?_⟩
    · rw [hcompile, hfails]
    · rw [hcompile, hn]
  · rintro before text after entry rfl hfails rfl hunnoticed blank hblank
    obtain ⟨late, hwithout, hwith⟩ := hfails.compile_eq hunnoticed hblank
    rw [hwithout, hwith, List.eraseIdx_append_of_length_le (Nat.le_refl _), Nat.sub_self]
    rfl

/-- A category with a member that no statement declares. -/
def halfDeclared : Text := "V \x7b a $X \x7d\n".toList

/-- What is read of it. -/
def halfDeclaredEntry : Entry :=
  ⟨1, .ok (.category (((Category.new ['V']).addMember ['a']).addInclude (.category ['X'])))⟩

/-- Its diagnostic. -/
def halfDeclaredDiagnostic : Diagnostic := ⟨1, .undeclared (.category ['X'])⟩

theorem halfDeclared_wholeLines : halfDeclared.WholeLines :=
  ⟨.inr rfl, by cbv⟩

/-- It fails at the start of any file. -/
theorem halfDeclared_fails (after : Text) :
    Fails {} [] halfDeclared after halfDeclaredEntry halfDeclaredDiagnostic where
  stands := .first (.inr halfDeclared_wholeLines) (by cbv)
  reported := ⟨.undeclared (.category ['X']), by rw [compile_nil]; rfl, rfl⟩

theorem blanks_halfDeclared : Text.Blanks ['\n'] halfDeclared := ⟨by simp, rfl, fun _ => .inr rfl⟩

theorem half_declared_omitted :
    (compile {} (halfDeclared ++ "a => b / _\n".toList)).2[0]? = some halfDeclaredDiagnostic ∧
    Fails {} [] halfDeclared "a => b / _\n".toList halfDeclaredEntry halfDeclaredDiagnostic ∧
    Unnoticed [] halfDeclared "a => b / _\n".toList halfDeclaredEntry ∧
    Text.Blanks ['\n'] halfDeclared ∧
    compile {} ('\n' :: "a => b / _\n".toList) =
      ((compile {} (halfDeclared ++ "a => b / _\n".toList)).1,
        (compile {} (halfDeclared ++ "a => b / _\n".toList)).2.eraseIdx 0) := by
  have hfails := halfDeclared_fails "a => b / _\n".toList
  have hunnoticed : Unnoticed [] halfDeclared "a => b / _\n".toList halfDeclaredEntry := by
    have htokens : (Token.tokenizeFrom 0 (Position.start.after halfDeclared)
        "a => b / _\n".toList).map Token.text =
        [['a'], ['=', '>'], ['b'], ['/'], ['_'], ['\n'], []] := by cbv
    intro name hname
    rw [List.mem_singleton.mp hname]
    refine .inr fun t ht _ hV => ?_
    have hmem := List.mem_map_of_mem (f := Token.text) ht
    rw [hV, List.nil_append, htokens] at hmem
    exact absurd hmem (by decide)
  have hdiagnostic : (compile {} (halfDeclared ++ "a => b / _\n".toList)).2[0]? =
      some halfDeclaredDiagnostic := by
    obtain ⟨late, -, hlate⟩ := hfails.compile_eq hunnoticed blanks_halfDeclared
    rw [compile_nil] at hlate
    exact congrArg (·[0]?) hlate
  exact ⟨hdiagnostic, hfails, hunnoticed, blanks_halfDeclared,
    (failed_statement_omitted hdiagnostic).2 [] halfDeclared "a => b / _\n".toList
      halfDeclaredEntry rfl hfails (by rw [compile_nil]; rfl) hunnoticed ['\n']
      blanks_halfDeclared⟩

/-- `V/b/_`, where `V` is a literal. -/
def literalRule : Rule where
  target := [.utterance ['V']]
  result := [.utterance ['b']]
  environment := [.placeholder]

/-- Behind a category that cannot be declared its name is not the literal that it is behind a blank
line: the rule is lost with it, and there is one more diagnostic. -/
theorem failed_category_known :
    Fails {} [] halfDeclared "V => b / _\n".toList halfDeclaredEntry halfDeclaredDiagnostic ∧
    Text.Blanks ['\n'] halfDeclared ∧
    compile {} (halfDeclared ++ "V => b / _\n".toList) =
      ({}, [halfDeclaredDiagnostic, ⟨2, .undeclared (.category ['V'])⟩]) ∧
    ∃ t, compile {} ('\n' :: "V => b / _\n".toList) =
      ({ laws := [⟨literalRule, ⟨2, 1⟩, t⟩] }, []) := by
  refine ⟨halfDeclared_fails _, blanks_halfDeclared, ?_, ?_⟩
  · have hread : readAll (halfDeclared ++ "V => b / _\n".toList) = [halfDeclaredEntry,
        ⟨2, .ok (.rule { literalRule with target := [.set (.category ['V'])] } ⟨2, 1⟩)⟩] := by cbv
    rw [compile, hread]
    rfl
  · have hread : readAll ('\n' :: "V => b / _\n".toList) =
        [⟨2, .ok (.rule literalRule ⟨2, 1⟩)⟩] := by cbv
    obtain ⟨t, ht⟩ : ∃ t, literalRule.table {} {} = .ok t := exists_ok (by decide +kernel)
    refine ⟨t, ?_⟩
    rw [compile, hread]
    simp only [enterAll, enter, add, ht]
    rfl

end SoundChange.RuleBook
