import SoundChange.Proofs.Automaton.View
import SoundChange.Proofs.Error
import SoundChange.Rule.Assembly
import Mathlib.Data.List.Basic
import Mathlib.Data.List.TakeWhile

/-!
# How a rule is laid out

What the automaton of a rule looks like, said construct by construct: the views of the states
between the one where a construct begins and the one where it ends. Nothing here speaks of how the
automaton is assembled; `Assembly.layout_of_automaton` says that it has this layout.

In the target a construct also takes the units from one number up to another, and the arcs of a
unit carry transforms: the null transform before the end of the unit, and one that `Ends` it there.

`Laid`, `LaidAll` and `LaidBranches` follow the elements of the rule. What stands for the
placeholder is a parameter, as is what an element is replaced by.
-/

namespace SoundChange

/-- The symbol of an edge of the word. -/
def WordEdge.symbol : WordEdge → Symbol
  | start => .wordStart
  | finish => .wordEnd

theorem Inventory.trie_eq_ok {i : Inventory} {e : Element} {t : Trie} :
    i.trie e = .ok t ↔ ∃ members, i.membersOf e = .ok members ∧ Trie.ofSet members = t := map_eq_ok

namespace Layout

open Assembly (TargetUnit Setting)

/-- An arc that reads nothing. -/
abbrev silent (t : StateId) : Arc := ⟨.lambda, t, none⟩

/-- An arc that forbids a symbol. -/
abbrev reject (c : Symbol) : Arc := ⟨c, Automaton.reject, none⟩

/-- The arcs of a state that passes to `forks` silently and forbids some symbols. -/
theorem mem_forks {forks : List StateId} {symbols : List Symbol} {b : Arc} :
    b ∈ (forks.map silent ++ symbols.map reject).foldl Arc.addTo [] ↔
      (∃ f ∈ forks, b = silent f) ∨ ∃ c ∈ symbols, b = reject c := by
  rw [Arc.mem_foldl_addTo, List.mem_append, List.mem_map, List.mem_map,
    or_iff_right List.not_mem_nil]
  simp only [eq_comm]

/-! ## Units -/

/-- The transform ends a unit that has read `member`. -/
def Ends (a : Automaton) (i : Inventory) (u : TargetUnit) (member : Text) (n : TransformId) :
    Prop :=
  ∃ text, u.emission.replacement i member = .ok text ∧
    if text = [] then n = u.null
    else a.transform? n = some (.ordinary text u.source u.target u.number)

/-- What an arc carries that ends a unit, if there is one. -/
def Closes (a : Automaton) (i : Inventory) (u : Option TargetUnit) (member : Text)
    (tr : Option TransformId) : Prop :=
  match u with
  | none => tr = none
  | some u => ∃ n, tr = some n ∧ Ends a i u member n

/-- The unit of an element of the target. -/
structure IsUnit (a : Automaton) (e : Element) (m : Emission) (n : Nat) (u : TargetUnit) :
    Prop where
  emission_eq : u.emission = m
  number_eq : u.number = n
  source_eq : u.source = e.display
  target_eq : u.target = m.display
  null_eq : a.transform? u.null = some (.null u.source u.target u.number)

/-- The unit of an element, which takes a number, or none outside the target. -/
def Begins (a : Automaton) (e : Element) (m : Option Emission) (n n' : Nat)
    (u : Option TargetUnit) : Prop :=
  match m with
  | none => u = none ∧ n' = n
  | some m => ∃ v, u = some v ∧ IsUnit a e m n v ∧ n' = n + 1

/-! ## Texts and sets -/

/-- A text is read character by character; the last arc carries the second transform. -/
def Spelled (a : Automaton) (tr : Option (TransformId × TransformId)) :
    Text → StateId → StateId → Prop
  | [], s, t => t = s
  | c :: cs, s, t => ∃ next,
    a.view s = { arcs := [⟨.char c, next, tr.map fun p => if cs.isEmpty then p.2 else p.1⟩] } ∧
      Spelled a tr cs next t

/-- Where an arc of a forest leads that has read `here`: to `exit`, or to a state from where longer
segments go on along `inner` and a segment that ends here passes to `exit` silently. -/
def Reaches (a : Automaton) (i : Inventory) (u : Option TargetUnit) (exit : StateId) (here : Text)
    (isMember isLast : Bool) (inner : List Arc → Prop) (target : StateId)
    (tr : Option TransformId) : Prop :=
  if isLast then target = exit ∧ Closes a i u here tr
  else tr = u.map TargetUnit.null ∧ ∃ arcs default, inner arcs ∧
    if isMember then Closes a i u here default ∧
      a.view target = { arcs := arcs ++ [silent exit], default }
    else a.view target = { arcs }

/-- The arcs that read the segments of a forest up to the state `exit`. -/
def Branched (a : Automaton) (i : Inventory) (u : Option TargetUnit) (exit : StateId) :
    Text → Forest → List Arc → Prop
  | _, .empty, arcs => arcs = []
  | path, .branch c isMember below beside, arcs => ∃ target tr rest,
    arcs = ⟨.char c, target, tr⟩ :: rest ∧
      Reaches a i u exit (path ++ [c]) isMember below.isEmpty
        (Branched a i u exit (path ++ [c]) below) target tr ∧
      Branched a i u exit path beside rest

/-- A literal text from `s` to `t`. -/
def LaidText (a : Automaton) (i : Inventory) (text : Text) (m : Option Emission)
    (s t : StateId) (n n' : Nat) : Prop :=
  match m with
  | none => n' = n ∧ Spelled a none text s t
  | some m => n' = n + 1 ∧ ∃ u last, IsUnit a (.utterance text) m n u ∧ Ends a i u text last ∧
    Spelled a (some (u.null, last)) text s t

/-- Any segment of a set from `s` to `t`. -/
def LaidSet (a : Automaton) (i : Inventory) (e : Element) (m : Option Emission)
    (s t : StateId) (n n' : Nat) : Prop :=
  ∃ trie u arcs, i.trie e = .ok trie ∧ Begins a e m n n' u ∧
    Branched a i u t [] trie.forest arcs ∧ a.view s = { arcs }

/-! ## Elements -/

/-- How something is laid out, given what follows: from where to where, and with which units. -/
abbrev Plan := FirstSet → StateId → StateId → Nat → Nat → Prop

/-- What a choice forbids where it begins. -/
def rejected (first follow : FirstSet) : List Symbol :=
  if first.nullable then []
  else (follow.symbols.filter fun c => !first.symbols.contains c).toList

theorem mem_rejected {first follow : FirstSet} {c : Symbol} : c ∈ rejected first follow ↔
    first.nullable = false ∧ c ∈ follow.symbols ∧ c ∉ first.symbols := by
  rw [rejected]
  split <;> rename_i hnull
  · simp [hnull]
  · rw [← SortedSet.mem_def, SortedSet.mem_filter, Bool.not_eq_true', ← Bool.not_eq_true,
      SortedSet.contains_iff]
    simp [hnull]

mutual

/-- An element from `s` to `t`. -/
def Laid (c : Setting) (a : Automaton) (target : Plan) (m : Option Emission) (follow : FirstSet) :
    Element → StateId → StateId → Nat → Nat → Prop
  | .utterance text, s, t, n, n' => LaidText a c.inventory text m s t n n'
  | .set ref, s, t, n, n' => LaidSet a c.inventory (.set ref) m s t n n'
  | .compound refs, s, t, n, n' => LaidSet a c.inventory (.compound refs) m s t n n'
  | .optional body, s, t, n, n' => ∃ inner last ms,
    a.view s = { arcs := [silent inner, silent t] } ∧ c.emissions m body = .ok ms ∧
      LaidAll c a target ms follow body inner last n n' ∧ a.view last = { arcs := [silent t] }
  | .disjunction branches, s, t, n, n' => ∃ forks first,
    LaidBranches c a target m follow t branches forks n n' ∧
      FirstSet.ofBranches c.inventory c.first branches = .ok first ∧
      a.view s = { arcs :=
        (forks.map silent ++ (rejected first follow).map reject).foldl Arc.addTo [] }
  | .boundary edge, s, t, n, n' => n' = n ∧ a.view s = { arcs := [⟨edge.symbol, t, none⟩] }
  | .placeholder, s, t, n, n' => if m.isSome then t = s ∧ n' = n else target follow s t n n'

/-- A sequence from `s` to `t`. -/
def LaidAll (c : Setting) (a : Automaton) (target : Plan) (ms : List Emission)
    (follow : FirstSet) : List Element → StateId → StateId → Nat → Nat → Prop
  | [], s, t, n, n' => t = s ∧ n' = n
  | e :: es, s, t, n, n' => ∃ after mid k, c.followOf es follow = .ok after ∧
    Laid c a target ms.head? after e s mid n k ∧ LaidAll c a target ms.tail follow es mid t k n'

/-- Branches that end in the state `join`, and the states where they begin. -/
def LaidBranches (c : Setting) (a : Automaton) (target : Plan) (m : Option Emission)
    (follow : FirstSet) (join : StateId) :
    List (List Element) → List StateId → Nat → Nat → Prop
  | [], forks, n, n' => forks = [] ∧ n' = n
  | [] :: branches, forks, n, n' => ∃ rest,
    forks = join :: rest ∧ LaidBranches c a target m follow join branches rest n n'
  | (e :: es) :: branches, forks, n, n' => ∃ fork rest last ms k,
    forks = fork :: rest ∧ c.emissions m (e :: es) = .ok ms ∧
      LaidAll c a target ms follow (e :: es) fork last n k ∧
      a.view last = { arcs := [silent join] } ∧
      LaidBranches c a target m follow join branches rest k n'

end

/-- The setting in which the target of a rule is assembled. -/
def targetSetting (i : Inventory) (rule : Rule) : Setting :=
  ⟨i, rule, FirstSet.ofTarget i rule.target, fun s _ => return s⟩

/-- The setting in which the environment of a rule is assembled. -/
def environmentSetting (i : Inventory) (rule : Rule) : Setting :=
  ⟨i, rule, FirstSet.ofTarget i rule.target, rule.readTarget i⟩

/-- The layout of a target; a placeholder in it stands for nothing. -/
def LaidTarget (i : Inventory) (rule : Rule) (a : Automaton) : Plan := fun follow s t n n' =>
  ∃ ms, Emission.align [] rule.result rule.target = some ms ∧
    LaidAll (targetSetting i rule) a (fun _ s t n n' => t = s ∧ n' = n) ms follow rule.target
      s t n n'

end Layout

/-! ## What is left of an environment -/

namespace Element

/-- The elements before the optional ones at the end: an element is among them if it is not
optional, or one behind it is not. -/
def beforeOptionals : List Element → List Element
  | [] => []
  | e :: es => if ∀ x ∈ e :: es, x.isOptional = true then [] else e :: beforeOptionals es

variable {e : Element} {es kept os : List Element}

theorem beforeOptionals_eq_nil :
    beforeOptionals es = [] ↔ ∀ e ∈ es, e.isOptional = true := by
  cases es with
  | nil => simp [beforeOptionals]
  | cons e es =>
    rw [beforeOptionals]
    split
    · rename_i hall
      exact iff_of_true rfl hall
    · rename_i hnot
      exact iff_of_false (List.cons_ne_nil _ _) hnot

theorem beforeOptionals_cons : beforeOptionals (e :: es) =
    if beforeOptionals es = [] ∧ e.isOptional = true then [] else e :: beforeOptionals es := by
  rw [beforeOptionals]
  simp only [List.forall_mem_cons, beforeOptionals_eq_nil, and_comm]

/-- There is one way to split a sequence into elements of which the last is not optional and
elements that all are. -/
theorem eq_beforeOptionals (hoptional : ∀ e ∈ os, e.isOptional = true)
    (hlast : ∀ e ∈ kept.getLast?, e.isOptional = false) : kept = beforeOptionals (kept ++ os) := by
  induction kept with
  | nil => exact (beforeOptionals_eq_nil.mpr hoptional).symm
  | cons e kept ih =>
    have hrest := ih fun x hx => hlast x (List.mem_getLast?_cons hx)
    rw [List.cons_append, beforeOptionals_cons, ← hrest, if_neg]
    rintro ⟨rfl, he⟩
    cases (hlast e rfl).symm.trans he

end Element

namespace Rule

/-- What is left of a sequence, and what is stripped off it. -/
theorem stripOptionals_append (es : List Element) : ∃ os, es = stripOptionals es ++ os ∧
    (∀ e ∈ os, e.isOptional = true) ∧ ∀ e ∈ (stripOptionals es).getLast?, e.isOptional = false := by
  refine ⟨(es.reverse.takeWhile Element.isOptional).reverse, ?_, fun e he => ?_, fun e he => ?_⟩
  · rw [stripOptionals, ← List.reverse_append, List.takeWhile_append_dropWhile,
      List.reverse_reverse]
  · exact List.mem_takeWhile_imp (List.mem_reverse.mp he)
  · have hhead := List.head?_dropWhile_not Element.isOptional es.reverse
    rw [stripOptionals, List.getLast?_reverse, Option.mem_def] at he
    rwa [he] at hhead

/-- Stripping leaves what stands before the optional elements at the end. -/
theorem stripOptionals_eq (es : List Element) :
    stripOptionals es = Element.beforeOptionals es := by
  obtain ⟨os, hos, hoptional, hlast⟩ := stripOptionals_append es
  rw [Element.eq_beforeOptionals hoptional hlast, ← hos]

/-- The environment of a rule, with `strip` without the optional elements at its end. -/
def environmentFor (rule : Rule) (strip : Bool) : List Element :=
  if strip then Element.beforeOptionals rule.environment else rule.environment

/-- That is the part of the environment that is assembled. -/
theorem environmentFor_eq (rule : Rule) (strip : Bool) : rule.environmentFor strip =
    if strip then stripOptionals rule.environment else rule.environment := by
  rw [stripOptionals_eq, environmentFor]

theorem environmentFor_append (rule : Rule) (strip : Bool) :
    ∃ os, rule.environment = rule.environmentFor strip ++ os ∧
      ∀ e ∈ os, e.isOptional = true := by
  cases strip with
  | false => exact ⟨[], (List.append_nil _).symm, List.forall_mem_nil _⟩
  | true =>
    obtain ⟨os, hos, hoptional, -⟩ := stripOptionals_append rule.environment
    exact ⟨os, by rwa [environmentFor_eq], hoptional⟩

theorem environmentFor_subset {rule : Rule} {strip : Bool} :
    rule.environmentFor strip ⊆ rule.environment := by
  obtain ⟨os, hos, -⟩ := rule.environmentFor_append strip
  intro e he
  rw [hos]
  exact List.mem_append_left os he

end Rule

end SoundChange
