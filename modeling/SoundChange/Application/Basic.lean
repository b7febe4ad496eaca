import SoundChange.Automaton.Table
import SoundChange.Application.Output
import SoundChange.Text.Character

/-!
# Applying laws to words

A word is gone through from its start to its end. At each place the table finds the longest span
that matches, the automaton's path through that span gives the output, and the search goes on behind
the span; where nothing matches, one symbol is copied. A match counts only if the target has read
something.
-/

namespace SoundChange

/-- How laws are applied to words. -/
structure ApplyOptions where
  /-- No match ends before a modifier: that belongs to the segment just read. -/
  modifierContinuation : Bool := true
  /-- The search goes on right behind the target, so that the rest of the environment can be part of
  the next match. -/
  rescanContext : Bool := false
  deriving DecidableEq, Repr

/-- A match: how many symbols it covers, what is written for them, and the changes. -/
structure Match where
  length : Nat
  output : Text
  changes : List Change
  deriving DecidableEq, Repr

namespace Table

/-- A match may end before these symbols. -/
def mayEnd (options : ApplyOptions) (rest : List Symbol) : Bool :=
  !(options.modifierContinuation && (rest.head?.bind Symbol.char?).any Text.isModifier)

/-- The longest span that ends in a final state, given the state after `read` symbols and the best
span so far. -/
def longestFrom (t : Table) (options : ApplyOptions) (id : StateId) (read : Nat)
    (best : Option Nat) : List Symbol → Option Nat
  | [] => best
  | s :: rest =>
    match t.next id s with
    | none => best
    | some id =>
      let best := if t.isFinal id && mayEnd options rest then some (read + 1) else best
      longestFrom t options id (read + 1) best rest

/-- The length of the longest match at the beginning of some symbols. -/
def longest (t : Table) (options : ApplyOptions) (symbols : List Symbol) : Option Nat :=
  t.longestFrom options t.start 0 none symbols

/-- The match at the beginning of some symbols. -/
def match? (t : Table) (options : ApplyOptions) (symbols : List Symbol) : Option Match :=
  match t.longest options symbols with
  | none => none
  | some length =>
    match t.automaton.acceptingPath (symbols.take length) with
    | none => none
    | some path =>
      let output := Output.ofPath t.automaton path
      match output.targetEnd with
      | none => none
      | some (0, _) => none
      | some (targetEnd, written) =>
        some (if options.rescanContext then ⟨targetEnd, written, output.changes⟩
          else ⟨length, output.written, output.changes⟩)

/-- Changes symbols, the first `skip` of which are covered by a match already. -/
def applyFrom (t : Table) (options : ApplyOptions) :
    (skip : Nat) → List Symbol → Text × List Change
  | _, [] => ([], [])
  | skip + 1, _ :: rest => applyFrom t options skip rest
  | 0, s :: rest =>
    match t.match? options (s :: rest) with
    | some found =>
      let (text, changes) := applyFrom t options (found.length - 1) rest
      (found.output ++ text, found.changes ++ changes)
    | none =>
      let (text, changes) := applyFrom t options 0 rest
      (s.char?.toList ++ text, changes)

/-- Changes a word and records the changes. -/
def apply (t : Table) (options : ApplyOptions) (word : Text) : Text × List Change :=
  t.applyFrom options 0 (Symbol.coat word)

end Table

end SoundChange
