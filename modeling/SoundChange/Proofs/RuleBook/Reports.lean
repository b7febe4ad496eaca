import SoundChange.Proofs.RuleBook.Entries
import SoundChange.Proofs.Rule.Unplaced
import SoundChange.Proofs.Statement.LineOrder
import SoundChange.Proofs.Statement.Placed

/-!
# Each failure is reported once

Every entry of a rule file adds a law, declares a set or has a diagnostic
(`RuleBook.length_enterAll`), and the diagnostics are those of the entries that fail, in their order
(`RuleBook.diagnostics_eq`). Each is reported in its own logical line: an error found on reading is
placed at a token of the line, and any other is reported where the line begins
(`RuleBook.covers_of_report`). As the lines stand one below the other, so do the reports
(`RuleBook.failures_reported`).
-/

namespace SoundChange

variable {options : CompileOptions} {n k : Nat} {e : RuleError} {p : Position} {d : Diagnostic}

/-- The entry declares a set. -/
def Statement.Entry.isDeclaration (entry : Entry) : Bool :=
  match entry.result with
  | .ok (.category _) | .ok (.featureSet _) => true
  | _ => false

theorem Diagnostic.line_ofError_of_position (h : e.position? = some p) :
    (ofError n e).line = p.line := by
  rw [ofError, h]
  rfl

theorem Diagnostic.line_ofError_of_unplaced (h : e.Unplaced) : (ofError n e).line = n := by
  rw [ofError, h]
  rfl

namespace RuleBook

open Statement (Entry readAll)

variable {b : RuleBook} {entry : Entry} {entries : List Entry} {source : Text}

/-- What is wrong with the entry at some place, when those before it have been carried out. -/
def report (options : CompileOptions) (b : RuleBook) (entries : List Entry) (k : Nat) :
    Option Diagnostic :=
  entries[k]?.bind fun entry =>
    match (enterAll options b (entries.take k)).1.enter options entry with
    | .ok _ => none
    | .error e => some (.ofError entry.line e)

/-- How many of some entries are declarations that are carried out. -/
def declarations (options : CompileOptions) (b : RuleBook) (entries : List Entry) : Nat :=
  (List.range entries.length).countP fun k =>
    (report options b entries k).isNone && entries[k]?.any Entry.isDeclaration

/-! ## One report for each failure -/

theorem report_eq_some (h : report options b entries k = some d) : ∃ entry e,
    entries[k]? = some entry ∧
      (enterAll options b (entries.take k)).1.enter options entry = .error e ∧
      d = .ofError entry.line e := by
  obtain ⟨entry, hentry, h⟩ := Option.bind_eq_some_iff.mp h
  split at h
  · cases h
  · rename_i e henter
    exact ⟨entry, e, hentry, henter, (Option.some.inj h).symm⟩

/-- What follows an entry does not matter to its report. -/
theorem report_append (h : k < entries.length) (more : List Entry) :
    report options b (entries ++ more) k = report options b entries k := by
  rw [report, report, List.getElem?_append_left h, List.take_append_of_le_length (Nat.le_of_lt h)]

theorem report_concat : report options b (entries ++ [entry]) entries.length =
    match (enterAll options b entries).1.enter options entry with
    | .ok _ => none
    | .error e => some (.ofError entry.line e) := by
  rw [report, List.getElem?_concat_length, List.take_left]
  rfl

/-- The diagnostics are the reports of the entries, in order. -/
theorem diagnostics_eq (options : CompileOptions) (b : RuleBook) (entries : List Entry) :
    (enterAll options b entries).2 =
      (List.range entries.length).filterMap (report options b entries) := by
  induction entries using List.reverseRecOn with
  | nil => rfl
  | append_singleton entries entry ih =>
    have hbefore : (List.range entries.length).filterMap (report options b (entries ++ [entry])) =
        (enterAll options b entries).2 := by
      rw [ih]
      exact List.filterMap_congr fun k hk => report_append (List.mem_range.mp hk) _
    rw [enterAll_append, List.length_append, List.length_singleton, List.range_succ,
      List.filterMap_append, hbefore]
    dsimp only
    congr 1
    rw [List.filterMap_cons, report_concat, List.filterMap_nil]
    cases henter : (enterAll options b entries).1.enter options entry with
    | ok later => rw [enterAll_of_ok henter]; rfl
    | error e => rw [enterAll_of_error henter]; rfl

/-- Every entry adds a law, declares a set or is reported. -/
theorem length_enterAll (options : CompileOptions) (b : RuleBook) (entries : List Entry) :
    (enterAll options b entries).1.laws.length + declarations options b entries +
      (enterAll options b entries).2.length = b.laws.length + entries.length := by
  induction entries using List.reverseRecOn with
  | nil => rfl
  | append_singleton entries entry ih =>
    have hdeclarations : declarations options b (entries ++ [entry]) =
        declarations options b entries +
          if (report options b (entries ++ [entry]) entries.length).isNone && entry.isDeclaration
          then 1 else 0 := by
      rw [declarations, List.length_append, List.length_singleton, List.range_succ,
        List.countP_append, List.countP_singleton, List.getElem?_concat_length, Option.any_some]
      congr 1
      refine List.countP_congr fun k hk => ?_
      have hk := List.mem_range.mp hk
      rw [report_append hk, List.getElem?_append_left hk]
    rw [hdeclarations, report_concat, enterAll_append, List.length_append, List.length_append,
      List.length_singleton]
    dsimp only
    cases henter : (enterAll options b entries).1.enter options entry with
    | error e =>
      rw [enterAll_of_error henter]
      simp only [enterAll, Option.isNone_some, Bool.false_and, Bool.false_eq_true, if_false,
        List.length_singleton]
      omega
    | ok later =>
      rw [enterAll_of_ok henter]
      simp only [enterAll, Option.isNone_none, Bool.true_and, List.length_nil]
      rcases enter_cases henter with ⟨c, _, hresult, -, rfl⟩ | ⟨f, hresult, rfl⟩ |
        ⟨law, hresult, -, rfl⟩
      · simp only [Entry.isDeclaration, hresult, if_true]
        omega
      · simp only [Entry.isDeclaration, hresult, if_true]
        omega
      · simp only [Entry.isDeclaration, hresult, List.length_append, List.length_singleton,
          Bool.false_eq_true, if_false]
        omega

/-! ## Where a failure is reported -/

theorem raises_add (b : RuleBook) (s : Statement) :
    Raises RuleError.Unplaced (b.add options s) := by
  cases s with
  | category c =>
    rw [add]
    split
    · exact raises_ok
    · exact raises_error (Inventory.raises_declareCategory c _ (by assumption))
  | featureSet f => exact raises_ok
  | rule rule position =>
    rw [add]
    split
    · exact raises_ok
    · exact raises_error (Rule.raises_table options _ (by assumption))

/-- An entry is reported in its logical line. -/
theorem covers_of_report (h : report options {} (readAll source) k = some d) :
    ∃ line, (LogicalLine.linesOf (Token.tokenize source))[k]? = some line ∧
      line.Covers d.line := by
  obtain ⟨entry, e, hentry, henter, rfl⟩ := report_eq_some h
  have hlines := Statement.readsLines_readAll source
  have hk : k < (LogicalLine.linesOf (Token.tokenize source)).length :=
    hlines.length_eq ▸ (List.getElem?_eq_some_iff.mp hentry).1
  obtain ⟨line, hline⟩ : ∃ line, (LogicalLine.linesOf (Token.tokenize source))[k]? = some line :=
    ⟨_, List.getElem?_eq_getElem hk⟩
  obtain ⟨entry', hentry', hread⟩ := hlines.getElem? hline
  obtain rfl := Option.some.inj (hentry.symm.trans hentry')
  have hmem := List.mem_of_getElem? hline
  obtain ⟨first, hfirst, rfl⟩ := Statement.entry_of_line (LogicalLine.mem_linesOf_iff.mp hmem) hread
  refine ⟨line, hline, ?_⟩
  rw [enter] at henter
  split at henter
  · rename_i s _
    rw [Diagnostic.line_ofError_of_unplaced (raises_add _ s e henter)]
    exact LogicalLine.covers_of_mem_all hmem
      (List.mem_append_left _ (List.mem_of_mem_head? hfirst))
  · rename_i herror
    cases henter
    have hends := (LogicalLine.mem_linesOf_iff.mp hmem).endsLine
    obtain ⟨p, hp, t, ht, rfl⟩ := Statement.placed_read
      (P := fun p => ∃ t ∈ line.all, t.position = p) (fun t ht => ⟨t, ht, rfl⟩)
      ⟨line.ending, LogicalLine.ending_mem_all, hends⟩ e herror
    rw [Diagnostic.line_ofError_of_position hp]
    exact LogicalLine.covers_of_mem_all hmem ht

/-- Each entry of a rule file adds a law, declares a set or is reported, and the diagnostics are the
reports, in order. They are on source lines one below the other, each on one of its own entry. -/
theorem failures_reported (options : CompileOptions) (source : Text) :
    (readAll source).length = (compile options source).1.laws.length +
        declarations options {} (readAll source) + (compile options source).2.length ∧
      (compile options source).2 =
        (List.range (readAll source).length).filterMap (report options {} (readAll source)) ∧
      ((compile options source).2.map Diagnostic.line).Pairwise (· < ·) ∧
      ∀ k d, report options {} (readAll source) k = some d →
        ∃ line, (LogicalLine.linesOf (Token.tokenize source))[k]? = some line ∧
          line.Covers d.line := by
  have hreports := diagnostics_eq options {} (readAll source)
  refine ⟨?_, hreports, ?_, fun k d => covers_of_report⟩
  · have hlength := length_enterAll options {} (readAll source)
    rw [compile, hlength]
    exact (Nat.zero_add _).symm
  · rw [compile, hreports, List.pairwise_map, List.pairwise_filterMap]
    refine List.pairwise_lt_range.imp fun {k k'} hlt d hd d' hd' => ?_
    obtain ⟨line, hline, hcovers⟩ := covers_of_report hd
    obtain ⟨line', hline', hcovers'⟩ := covers_of_report hd'
    obtain ⟨hk, rfl⟩ := List.getElem?_eq_some_iff.mp hline
    obtain ⟨hk', rfl⟩ := List.getElem?_eq_some_iff.mp hline'
    exact List.pairwise_iff_getElem.mp (LogicalLine.pairwise_linesOf source) k k' hk hk' hlt _ _
      hcovers hcovers'

/-- A declaration that fails on its second line, and a rule that refers to it. -/
example : (compile {} "V \x7b\n  a (\n\x7d\na/e/_\n$V/a/_\n".toList).2.map Diagnostic.line =
    [2, 5] := by decide +kernel

end RuleBook

end SoundChange
