import SoundChange.Proofs.Application.Account

/-!
# Changes are local

A symbol that no transition reads, and before which a match may end, keeps what is on its two sides
apart (`Table.Parts`): no span goes beyond it, so the matches on its left are the same whatever
follows (`Table.Parts.match?_append`), and the search begins anew behind it
(`Table.Parts.applyFrom_append`).

Where an automaton has no edge for a character and for the edges of the word, its table changes the
text before the character and the text behind it as if they were words of their own
(`Table.apply_append_unread`).
-/

namespace SoundChange

/-- No edge of the automaton has the symbol. -/
def Automaton.NeverReads (a : Automaton) (c : Symbol) : Prop :=
  ∀ s, ∀ e ∈ a.edgesOf s, e.symbol ≠ c

namespace Table

variable {a : Automaton} {t : Table} {options : ApplyOptions} {c d : Symbol}
  {x rest rest' : List Symbol} {found : Match} {n : Nat}

/-- What an automaton never reads, its table never reads. -/
theorem next_eq_none_of_neverReads (hsize : a.edges.size = a.size) {limit : Nat}
    (ht : ofAutomaton a limit = .ok t) (hc : a.NeverReads c) (id : StateId) :
    t.next id c = none := by
  rcases exact_of_ofAutomaton hsize ht with ⟨-, rfl⟩ | hexact
  · exact next_deadEnd id c
  cases hrow : t.row? id with
  | none => rw [next, hrow, Option.bind_none]
  | some r =>
    obtain ⟨hr, rfl⟩ := (row?_eq_some_iff hexact.nodup).mp hrow
    refine hexact.next_eq_none hr (.inr (List.eq_nil_iff_forall_not_mem.mpr fun s hs => ?_))
    obtain ⟨-, p, -, q, he, -⟩ := (Automaton.mem_successors hsize).mp hs
    exact hc p _ he rfl

/-- No transition reads the symbol, and a match may end before it. -/
structure Parts (t : Table) (options : ApplyOptions) (c : Symbol) : Prop where
  next_eq (id : StateId) : t.next id c = none
  mayEnd (rest : List Symbol) : mayEnd options (c :: rest) = true

theorem parts_of_neverReads (hsize : a.edges.size = a.size) {limit : Nat}
    (ht : ofAutomaton a limit = .ok t) (hc : a.NeverReads c)
    (hmodifier : c.char?.any Text.isModifier = false) (options : ApplyOptions) :
    t.Parts options c where
  next_eq := next_eq_none_of_neverReads hsize ht hc
  mayEnd rest := by
    rw [Table.mayEnd, List.head?_cons, Option.bind_some, hmodifier, Bool.and_false]
    rfl

namespace Parts

/-- The longest span is the same, whatever parts it from what follows. -/
theorem longestFrom_append (hc : t.Parts options c) (hd : t.Parts options d) (id : StateId)
    (read : Nat) (best : Option Nat) : t.longestFrom options id read best (x ++ c :: rest) =
      t.longestFrom options id read best (x ++ d :: rest') := by
  induction x generalizing id read best with
  | nil =>
    rw [List.nil_append, List.nil_append, longestFrom, longestFrom, hc.next_eq, hd.next_eq]
  | cons s x ih =>
    have hend : Table.mayEnd options (x ++ c :: rest) = Table.mayEnd options (x ++ d :: rest') := by
      cases x with
      | nil => exact (hc.mayEnd rest).trans (hd.mayEnd rest').symm
      | cons => rfl
    rw [List.cons_append, List.cons_append, longestFrom, longestFrom, hend]
    cases t.next id s with
    | none => rfl
    | some next => exact ih next (read + 1) _

/-- No span goes beyond the symbol. -/
theorem le_of_spans (hc : t.Parts options c) {id : StateId}
    (h : t.Spans options id (x ++ c :: rest) n) : n ≤ x.length := by
  induction x generalizing id n with
  | nil => exact absurd h (not_spans_cons (hc.next_eq id))
  | cons s x ih =>
    cases hnext : t.next id s with
    | none => exact absurd h (not_spans_cons hnext)
    | some next =>
      rcases (spans_cons_iff hnext).mp h with ⟨rfl, -⟩ | ⟨k, rfl, hk⟩
      · exact Nat.succ_le_succ (Nat.zero_le _)
      · exact Nat.succ_le_succ (ih hk)

/-- The match is the same, whatever parts it from what follows. -/
theorem match?_append (hc : t.Parts options c) (hd : t.Parts options d) :
    t.match? options (x ++ c :: rest) = t.match? options (x ++ d :: rest') := by
  have hlongest : t.longest options (x ++ c :: rest) = t.longest options (x ++ d :: rest') :=
    hc.longestFrom_append hd t.start 0 none
  rw [match?, match?, hlongest]
  cases hn : t.longest options (x ++ d :: rest') with
  | none => rfl
  | some n =>
    have hle : n ≤ x.length := hd.le_of_spans (longest_eq_some_iff.mp hn).1
    have htake : (x ++ c :: rest).take n = (x ++ d :: rest').take n := by
      rw [List.take_append_of_le_length hle, List.take_append_of_le_length hle]
    dsimp only
    rw [htake]

/-- No match begins with the symbol. -/
theorem match?_cons (hc : t.Parts options c) : t.match? options (c :: rest) = none := by
  rw [match?, longest, longestFrom, hc.next_eq]

theorem applyFrom_cons (hc : t.Parts options c) : t.applyFrom options 0 (c :: rest) =
    (c.char?.toList ++ (t.applyFrom options 0 rest).1, (t.applyFrom options 0 rest).2) := by
  rw [applyFrom, hc.match?_cons]

/-- A match covers nothing of what follows the symbol. -/
theorem length_le (ha : t.automaton.Registered) (hc : t.Parts options c)
    (h : t.match? options (x ++ c :: rest) = some found) : found.length ≤ x.length := by
  obtain ⟨length, path, targetEnd, written, hlength, hpath, hend, -, rfl⟩ :=
    match?_eq_some_iff.mp h
  have hle : length ≤ x.length := hc.le_of_spans (longest_eq_some_iff.mp hlength).1
  obtain ⟨f, hrun, -⟩ := Automaton.run_of_acceptingPath hpath
  split
  · have htarget := ((hrun.balanced ha).1.target hend).1
    exact Nat.le_trans htarget (Nat.le_trans (List.length_take_le _ _) hle)
  · exact hle

/-- What is left of the symbol is changed as if the word ended there, and the search begins anew
behind it. -/
theorem applyFrom_append (ha : t.automaton.Registered) (hc : t.Parts options c)
    (hend : t.Parts options .wordEnd) {skip : Nat} (hskip : skip ≤ x.length) :
    t.applyFrom options skip (x ++ c :: rest) =
      ((t.applyFrom options skip (x ++ [.wordEnd])).1 ++
          (c.char?.toList ++ (t.applyFrom options 0 rest).1),
        (t.applyFrom options skip (x ++ [.wordEnd])).2 ++ (t.applyFrom options 0 rest).2) := by
  induction x generalizing skip with
  | nil =>
    obtain rfl : skip = 0 := Nat.le_zero.mp hskip
    rw [List.nil_append, List.nil_append, hc.applyFrom_cons, hend.applyFrom_cons]
    rfl
  | cons s x ih =>
    cases skip with
    | succ skip => exact ih (Nat.le_of_succ_le_succ hskip)
    | zero =>
      have hmatch : t.match? options (s :: (x ++ c :: rest)) =
          t.match? options (s :: (x ++ [.wordEnd])) := hc.match?_append (x := s :: x) hend
      rw [List.cons_append, List.cons_append, applyFrom, applyFrom, hmatch]
      cases hfound : t.match? options (s :: (x ++ [.wordEnd])) with
      | none =>
        dsimp only
        rw [ih (Nat.zero_le _), List.append_assoc]
      | some found =>
        have hle : found.length ≤ x.length + 1 := hend.length_le (x := s :: x) ha hfound
        dsimp only
        rw [ih (Nat.sub_le_of_le_add hle), List.append_assoc, List.append_assoc]

end Parts

/-- Around a character that the automaton never reads, and that is no modifier, the two sides of a
word are changed as words of their own, provided that the automaton does not read the edges of the
word either. -/
theorem apply_append_unread {limit : Nat} {c : Char} (ha : a.Built) (hregistered : a.Registered)
    (ht : ofAutomaton a limit = .ok t) (hmodifier : Text.isModifier c = false)
    (hc : a.NeverReads (.char c)) (hstart : a.NeverReads .wordStart)
    (hend : a.NeverReads .wordEnd) (options : ApplyOptions) (u v : Text) :
    t.apply options (u ++ c :: v) =
      ((t.apply options u).1 ++ c :: (t.apply options v).1,
        (t.apply options u).2 ++ (t.apply options v).2) := by
  have hregistered : t.automaton.Registered := automaton_eq ht ▸ hregistered
  have hparts {s : Symbol} (hs : a.NeverReads s) (hplain : s.char?.any Text.isModifier = false) :
      t.Parts options s := parts_of_neverReads ha.size_edges ht hs hplain options
  have hcoat : Symbol.coat (u ++ c :: v) =
      (.wordStart :: Symbol.ofText u) ++ .char c :: (Symbol.ofText v ++ [.wordEnd]) := by
    simp [Symbol.coat, Symbol.ofText]
  have hleft : Symbol.coat u = (.wordStart :: Symbol.ofText u) ++ [.wordEnd] := rfl
  have hright : t.apply options v = t.applyFrom options 0 (Symbol.ofText v ++ [.wordEnd]) :=
    (hparts hstart rfl).applyFrom_cons
  rw [hright, apply, hcoat, (hparts hc hmodifier).applyFrom_append hregistered (hparts hend rfl)
    (Nat.zero_le _), ← hleft]
  rfl

/-- Writes `x` for an `a` before a `b`. -/
def rewriteBeforeB : Automaton :=
  ((((((Automaton.empty.addState true).addState false).addTransform
    (.ordinary ['x'] ['a'] ['x'] 0)).addEdge Automaton.start (.char 'a') 2).attach
    Automaton.start (.char 'a') 0).addEdge 2 (.char 'b') 3).setFinal 3

theorem rewriteBeforeB_apply_append : rewriteBeforeB.Built ∧ rewriteBeforeB.Registered ∧
    rewriteBeforeB.NeverReads (.char 'c') ∧ rewriteBeforeB.NeverReads .wordStart ∧
    rewriteBeforeB.NeverReads .wordEnd ∧ ∃ t, ofAutomaton rewriteBeforeB 8 = .ok t ∧
    t.apply {} "abacab".toList = ((t.apply {} "aba".toList).1 ++ 'c' :: (t.apply {} "ab".toList).1,
      (t.apply {} "aba".toList).2 ++ (t.apply {} "ab".toList).2) ∧
    (t.apply {} "aba".toList).1 = "xba".toList := by
  have hbuilt : rewriteBeforeB.Built :=
    .setFinal _ (.addEdge _ _ _ (.attach _ _ _ (.addEdge _ _ _ (.addTransform _
      (.addState _ (.addState _ .empty))))))
  have hregistered : rewriteBeforeB.Registered := by
    refine .setFinal (.addEdge (.attach (.addEdge (.addTransform
      (.addState (.addState Automaton.registered_empty true) false) _)) ?_))
    decide
  have hreads (s : StateId) (e : Edge) (he : e ∈ rewriteBeforeB.edgesOf s) :
      e.symbol = .char 'a' ∨ e.symbol = .char 'b' := by
    by_cases hs : s < 4
    · have hall : ∀ s < 4, ∀ e ∈ rewriteBeforeB.edgesOf s,
          e.symbol = .char 'a' ∨ e.symbol = .char 'b' := by decide +kernel
      exact hall s hs e he
    · rw [Automaton.edgesOf_eq_nil (Nat.le_of_not_lt hs)] at he
      cases he
  have hnever {c : Symbol} (ha : c ≠ .char 'a') (hb : c ≠ .char 'b') :
      rewriteBeforeB.NeverReads c := fun s e he heq =>
    (hreads s e he).elim (fun h => ha (heq ▸ h)) fun h => hb (heq ▸ h)
  have hc : rewriteBeforeB.NeverReads (.char 'c') := hnever (by decide) (by decide)
  have hstart : rewriteBeforeB.NeverReads .wordStart := hnever (by decide) (by decide)
  have hend : rewriteBeforeB.NeverReads .wordEnd := hnever (by decide) (by decide)
  obtain ⟨t, ht⟩ : ∃ t, ofAutomaton rewriteBeforeB 8 = .ok t := exists_ok (by decide +kernel)
  have houtput : (ofAutomaton rewriteBeforeB 8).map (fun t => (t.apply {} "aba".toList).1) =
      .ok "xba".toList := by decide +kernel
  rw [ht] at houtput
  exact ⟨hbuilt, hregistered, hc, hstart, hend, t, ht,
    apply_append_unread hbuilt hregistered ht (by decide) hc hstart hend {} "aba".toList
      "ab".toList, Except.ok.inj houtput⟩

end Table

end SoundChange
