import SoundChange.Automaton.Basic
import SoundChange.FirstSet

/-!
# The automaton of a rule

A rule becomes an automaton that reads the environment with the target in its place. Every construct
is assembled from the state where it begins and gives the state where it ends. In the target each
element is aligned with an element of the result: the transforms on its edges write that result.

An alternative with branches that must all read something forbids, where it begins, the symbols that
can follow it and begin no branch (`Assembly.rejectAll`).
-/

namespace SoundChange

/-- What an element of the target is replaced by: its aligned result, and literal text that is left
over at the end of the result. -/
structure Emission where
  result : Option Element
  overflow : Text := []
  deriving Repr

namespace Emission

/-- The text of literal elements; there is none if another element is among them. -/
def literal : List Element → Option Text
  | [] => some []
  | .utterance text :: es => (literal es).map (text ++ ·)
  | _ :: _ => none

/-- Aligns the elements of a target with those of a result. The text of results that are left over,
and `overflow`, go to the last element. -/
def align (overflow : Text) : List Element → List Element → Option (List Emission)
  | _, [] => some []
  | results, [_] =>
    (literal results.tail).map fun text => [⟨results.head?, text ++ overflow⟩]
  | results, _ :: e :: es => (align overflow results.tail (e :: es)).map (⟨results.head?, []⟩ :: ·)

/-- The result as a rule file has it. -/
def display (m : Emission) : Text := (m.result.map Element.display).getD [] ++ m.overflow

/-- What is written for some text read. -/
def replacement (m : Emission) (i : Inventory) (member : Text) : Except RuleError Text :=
  match m.result with
  | none => .ok m.overflow
  | some (.utterance text) => .ok (text ++ m.overflow)
  | some (.set (.feature present name)) =>
    (i.featureSet name).map fun f => (f.transform present member).getD member ++ m.overflow
  | some _ => .ok (member ++ m.overflow)

end Emission

/-- An automaton being assembled and the number of target units so far. -/
structure Assembly where
  automaton : Automaton := .empty
  units : Nat := 0

/-- A step of assembling, which may fail. -/
abbrev Assemble := StateT Assembly (Except RuleError)

namespace Assembly

/-- Changes the automaton. -/
def change (f : Automaton → Automaton) : Assemble Unit :=
  modify fun s => { s with automaton := f s.automaton }

/-- Adds a state and gives its number. -/
def addState (inTarget : Bool) : Assemble StateId :=
  modifyGet fun s => (s.automaton.size, { s with automaton := s.automaton.addState inTarget })

/-- Adds a transform and gives its number. -/
def addTransform (t : Transform) : Assemble TransformId :=
  modifyGet fun s =>
    (s.automaton.transforms.size, { s with automaton := s.automaton.addTransform t })

/-- Begins a new unit of the target and gives its number. -/
def addUnit : Assemble Nat := modifyGet fun s => (s.units, { s with units := s.units + 1 })

/-- Adds an edge that carries a transform if one is given. -/
def addEdge (id : StateId) (symbol : Symbol) (target : StateId) (t : Option TransformId) :
    Assemble Unit := do
  change (·.addEdge id symbol target)
  match t with
  | some t => change (·.attach id symbol t)
  | none => pure ()

/-- Adds an edge that reads nothing. -/
def addSilent (id target : StateId) : Assemble Unit := change (·.addSilent id target)

/-- Forbids several symbols in a state. -/
def rejectAll (id : StateId) (symbols : List Symbol) : Assemble Unit :=
  change fun a => symbols.foldl (fun a s => a.addReject id s) a

/-- Reads a text character by character. The last edge carries the second transform, the others the
first. -/
def spell (inTarget : Bool) (transforms : Option (TransformId × TransformId)) :
    Text → StateId → Assemble StateId
  | [], id => return id
  | c :: cs, id => do
    let next ← addState inTarget
    addEdge id (.char c) next (transforms.map fun t => if cs.isEmpty then t.2 else t.1)
    spell inTarget transforms cs next

/-- A unit of the target: how it is replaced, its null transform, and its texts for the record. -/
structure TargetUnit where
  emission : Emission
  number : Nat
  null : TransformId
  source : Text
  target : Text

/-- Begins a unit for an element. -/
def beginUnit (e : Element) (m : Emission) : Assemble TargetUnit := do
  let number ← addUnit
  let null ← addTransform (.null e.display m.display number)
  return ⟨m, number, null, e.display, m.display⟩

/-- The transform that ends a unit after reading some text: it writes the replacement, or is the
null transform if there is nothing to write. -/
def endUnit (i : Inventory) (u : TargetUnit) (member : Text) : Assemble TransformId := do
  let replacement ← (u.emission.replacement i member : Except RuleError Text)
  if replacement.isEmpty then return u.null
  else addTransform (.ordinary replacement u.source u.target u.number)

/-- Reads any segment of a forest, whose path so far is `path`, up to the state `exit`. A segment
that is the beginning of a longer one leaves by a silent edge. -/
def readForest (i : Inventory) (u : Option TargetUnit) (exit : StateId) (path : Text) :
    Forest → StateId → Assemble Unit
  | .empty, _ => return
  | .branch c isMember below beside, id => do
    let here := path ++ [c]
    if below.isEmpty then
      change (·.addEdge id (.char c) exit)
      match u with
      | some u => if isMember then
          let t ← endUnit i u here
          change (·.attach id (.char c) t)
      | none => pure ()
    else
      let next ← addState u.isSome
      addEdge id (.char c) next (u.map TargetUnit.null)
      readForest i u exit here below next
      if isMember then
        addSilent next exit
        match u with
        | some u =>
          let t ← endUnit i u here
          change (·.attachDefault next t)
        | none => pure ()
    readForest i u exit path beside id

/-- Reads any segment of the set that an element names. -/
def readSet (i : Inventory) (e : Element) (m : Option Emission) (id : StateId) :
    Assemble StateId := do
  let trie ← (i.trie e : Except RuleError Trie)
  let exit ← addState m.isSome
  let u ← m.mapM (beginUnit e)
  readForest i u exit [] trie.forest id
  return exit

/-- Reads a literal text. -/
def readText (i : Inventory) (text : Text) (m : Option Emission) (id : StateId) :
    Assemble StateId := do
  match m with
  | none => spell false none text id
  | some m =>
    let number ← addUnit
    let e := Element.utterance text
    let replacement ← (m.replacement i text : Except RuleError Text)
    let null ← addTransform (.null e.display m.display number)
    let last ← if replacement.isEmpty then pure null
      else addTransform (.ordinary replacement e.display m.display number)
    spell true (some (null, last)) text id

/-- What a rule is assembled with: the inventory, the rule itself, the first set of its target, and
how its target is assembled. -/
structure Setting where
  inventory : Inventory
  rule : Rule
  first : Except RuleError FirstSet
  readTarget : StateId → FirstSet → Assemble StateId

/-- The first set of what follows: the rest of a sequence and then `follow`. -/
def Setting.followOf (c : Setting) (rest : List Element) (follow : FirstSet) :
    Except RuleError FirstSet :=
  (FirstSet.ofSequence c.inventory c.first rest).map (·.followedBy follow)

/-- How the elements of a group are replaced: the group's own result is aligned with the first. -/
def Setting.emissions (c : Setting) (m : Option Emission) (body : List Element) :
    Except RuleError (List Emission) :=
  match m with
  | none => .ok []
  | some m =>
    match Emission.align m.overflow m.result.toList body with
    | some ms => .ok ms
    | none => .error (.unaligned c.rule.display)

mutual

/-- Assembles an element from the state `id`; in the target `m` is what replaces it. -/
def readElement (c : Setting) (m : Option Emission) (follow : FirstSet) :
    Element → StateId → Assemble StateId
  | .utterance text, id => readText c.inventory text m id
  | .set ref, id => readSet c.inventory (.set ref) m id
  | .compound refs, id => readSet c.inventory (.compound refs) m id
  | .optional body, id => do
    let bypass ← addState m.isSome
    let inner ← addState m.isSome
    addSilent id inner
    addSilent id bypass
    let ms ← (c.emissions m body : Except RuleError (List Emission))
    let last ← readSequence c ms follow body inner
    addSilent last bypass
    return bypass
  | .disjunction branches, id => do
    let join ← addState m.isSome
    let first ← readBranches c m follow join branches id
    if first.nullable then return join
    else
      rejectAll id (follow.symbols.filter fun s => !first.symbols.contains s).toList
      return join
  | .boundary edge, id => do
    let next ← addState m.isSome
    change (·.addEdge id (match edge with | .start => .wordStart | .finish => .wordEnd) next)
    return next
  | .placeholder, id => if m.isSome then return id else c.readTarget id follow

/-- Assembles a sequence, the elements replaced one by one by what `ms` says. -/
def readSequence (c : Setting) (ms : List Emission) (follow : FirstSet) :
    List Element → StateId → Assemble StateId
  | [], id => return id
  | e :: es, id => do
    let after ← (c.followOf es follow : Except RuleError FirstSet)
    let next ← readElement c ms.head? after e id
    readSequence c ms.tail follow es next

/-- Assembles branches up to the state `join` and gives the first set of the choice. -/
def readBranches (c : Setting) (m : Option Emission) (follow : FirstSet) (join : StateId) :
    List (List Element) → StateId → Assemble FirstSet
  | [], _ => return .ofSymbols []
  | [] :: branches, id => do
    addSilent id join
    let rest ← readBranches c m follow join branches id
    return FirstSet.nothing.orElse rest
  | (e :: es) :: branches, id => do
    let first ← (FirstSet.ofSequence c.inventory c.first (e :: es) : Except RuleError FirstSet)
    let start ← addState m.isSome
    addSilent id start
    let ms ← (c.emissions m (e :: es) : Except RuleError (List Emission))
    let last ← readSequence c ms follow (e :: es) start
    addSilent last join
    let rest ← readBranches c m follow join branches id
    return first.orElse rest

end

end Assembly

namespace Rule

/-- The elements without the optional ones at the end. -/
def stripOptionals (es : List Element) : List Element :=
  (es.reverse.dropWhile Element.isOptional).reverse

/-- Assembles the target of a rule; a placeholder in a target stands for nothing. -/
def readTarget (i : Inventory) (rule : Rule) (id : StateId) (follow : FirstSet) :
    Assemble StateId := do
  let c : Assembly.Setting := ⟨i, rule, FirstSet.ofTarget i rule.target, fun id _ => return id⟩
  match Emission.align [] rule.result rule.target with
  | some ms => Assembly.readSequence c ms follow rule.target id
  | none => throw (.unaligned rule.display)

/-- Assembles a whole rule. -/
def assemble (i : Inventory) (rule : Rule) (strip : Bool) : Assemble Unit := do
  let c : Assembly.Setting := ⟨i, rule, FirstSet.ofTarget i rule.target, readTarget i rule⟩
  let environment := if strip then stripOptionals rule.environment else rule.environment
  let last ← Assembly.readSequence c [] .nothing environment Automaton.start
  Assembly.change (·.setFinal last)

/-- The automaton of a rule. With `strip`, optional elements at the end of the environment are left
out. -/
def automaton (i : Inventory) (rule : Rule) (strip : Bool) : Except RuleError Automaton :=
  match (assemble i rule strip).run {} with
  | .ok (_, s) => .ok s.automaton
  | .error e => .error e

end Rule

end SoundChange
