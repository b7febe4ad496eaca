import SoundChange.Error
import SoundChange.Statement
import SoundChange.Token.Cursor
import SoundChange.Token.Lexer

/-!
# Reading statements

A rule file is read statement by statement. A statement ends at the end of its line; one that goes
wrong is given up there, so a bad line costs no other. Bare words stand for categories once a
category of that name has been read.

Groups and set references are read with an explicit stack: a `Draft` holds the elements read so far
in every open group, and each token changes the draft (`Draft.step`), completes the rule or ends it
with an error. `Statement.read_rest_length` says that reading consumes at least one token, so
`Statement.readAll` reaches the end of every file.
-/

namespace SoundChange

/-- The result of reading something, and the tokens that are left. -/
structure Reading (α : Type) where
  result : Except RuleError α
  rest : List Token

/-- The tokens after the end of the present line; an end of file is not passed. -/
def skipLine : List Token → List Token
  | [] => []
  | t :: ts =>
    if t.kind = .newline then ts else if t.kind = .endOfFile then t :: ts else skipLine ts

/-- The tokens to go on with after an error found on reading `t`. -/
def recover (t : Token) (ts : List Token) : List Token :=
  if t.kind = .newline then ts else skipLine ts

namespace Reading

/-- Gives up at the token `t`. -/
def fail {α : Type} (e : RuleError) (t : Token) (ts : List Token) : Reading α :=
  ⟨.error e, recover t ts⟩

/-- Ends a statement at `t`, which ends its line. -/
def finish {α : Type} (result : Except RuleError α) (t : Token) (ts : List Token) : Reading α :=
  ⟨result, if t.kind = .newline then ts else t :: ts⟩

/-- What is found of something unfinished after the last token. -/
def endless {α : Type} (production : Production) (expected : List TokenKind) : Reading α :=
  ⟨.error (.ofToken production expected (.eof .start)), []⟩

/-- A declaration that must be followed by the end of its line. -/
def declared {α : Type} (production : Production) (a : α) : List Token → Reading α
  | [] => ⟨.ok a, []⟩
  | t :: ts =>
    if t.kind = .newline ∨ t.kind = .endOfFile then finish (.ok a) t ts
    else fail (.ofToken production [.newline] t) t ts

end Reading

/-! ## Set references -/

/-- An open bracket: where it stands, the references read so far, and the sign of a feature whose
name comes next. -/
structure Bracket where
  position : Position
  refs : List SetRef := []
  sign : Option Bool := none

/-- What one more token makes of something half read. -/
inductive Progress (σ α : Type) where
  | more (state : σ)
  | done (value : α)
  | failed (error : RuleError)

namespace Bracket

/-- The element of some references between brackets; `close` is the place of the closing one. -/
def element (refs : List SetRef) (close : Position) : Except RuleError Element :=
  match refs with
  | [] => .error (.defective .setIdentifier .emptyCompound close)
  | [ref] => .ok (.set ref)
  | refs => .ok (.compound refs)

/-- Reads one token between brackets. -/
def step (b : Bracket) (t : Token) : Progress Bracket Element :=
  match b.sign with
  | some present =>
    if t.isName then .more { b with refs := b.refs ++ [.feature present t.text], sign := none }
    else .failed (.ofToken .setIdentifier [.identifier] t)
  | none =>
    match t.kind with
    | .word | .identifier => .more { b with refs := b.refs ++ [.category t.text] }
    | .plus => .more { b with sign := some true }
    | .minus => .more { b with sign := some false }
    | .closeBracket =>
      match element b.refs t.position with
      | .ok e => .done e
      | .error e => .failed e
    | _ => .failed (.ofToken .setIdentifier [.identifier, .plus, .minus, .closeBracket] t)

end Bracket

/-! ## Declarations -/

namespace Category

/-- Reads the members of a category up to its closing brace and the end of the line. -/
def readMembers (known : List Text) (c : Category) : Option Bracket → List Token → Reading Category
  | _, [] => .endless .category [.word, .identifier, .openBracket, .closeBrace]
  | some b, t :: ts =>
    match b.step t with
    | .more b => readMembers known c (some b) ts
    | .done (.set ref) => readMembers known (c.addInclude ref) none ts
    | .done _ => .fail (.defective .category .compoundInCategory b.position) t ts
    | .failed e => .fail e t ts
  | none, t :: ts =>
    match t.kind with
    | .word =>
      if t.text ∈ known then readMembers known (c.addInclude (.category t.text)) none ts
      else readMembers known (c.addMember t.text) none ts
    | .identifier => readMembers known (c.addInclude (.category t.text)) none ts
    | .openBracket => readMembers known c (some { position := t.position }) ts
    | .comma => readMembers known c none ts
    | .closeBrace => .declared .category c ts
    | _ => .fail (.ofToken .category [.word, .identifier, .openBracket, .closeBrace] t) t ts

end Category

namespace FeatureSet

/-- Where the members of a feature-set are read: between entries, or in the middle of a pair. -/
inductive Slot where
  | between
  /-- After a base form, before its arrow. -/
  | base (base : Token)
  /-- After the arrow. -/
  | arrow (base : Token)

/-- Reads the members of a feature-set up to its closing brace and the end of the line. -/
def readMembers (f : FeatureSet) : Slot → List Token → Reading FeatureSet
  | _, [] => .endless .member [.word, .arrow, .closeBrace]
  | .base b, _ :: ts => readMembers f (.arrow b) ts
  | .arrow b, t :: ts =>
    if t.kind = .word then
      match f.addPair b.text t.text with
      | .ok f => readMembers f .between ts
      | .error c => .fail (.defective .member (.conflict c) b.position) t ts
    else .fail (.ofToken .member [.word] t) t ts
  | .between, t :: ts =>
    match t.kind with
    | .word =>
      if ts.head?.any (·.kind = .arrow) then readMembers f (.base t) ts
      else readMembers (f.addMember t.text) .between ts
    | .comma => readMembers f .between ts
    | .closeBrace => .declared .featureSet f ts
    | _ => .fail (.ofToken .member [.word, .arrow, .closeBrace] t) t ts

end FeatureSet

/-! ## Rules -/

namespace Element

mutual

/-- Gives every boundary in an element its edge: `first` says that nothing comes before it. -/
def settle (first : Bool) : Element → Element
  | boundary _ => boundary (if first then .start else .finish)
  | optional body => optional (settleAll first body)
  | disjunction branches => disjunction (settleBranches first branches)
  | utterance text => utterance text
  | set ref => set ref
  | compound refs => compound refs
  | placeholder => placeholder

/-- The same for a sequence; only its first element can be first. -/
def settleAll (first : Bool) : List Element → List Element
  | [] => []
  | e :: es => settle first e :: settleAll false es

/-- The same for branches, each of which begins where the group does. -/
def settleBranches (first : Bool) : List (List Element) → List (List Element)
  | [] => []
  | branch :: branches => settleAll first branch :: settleBranches first branches

end

/-- Some boundary stands neither first nor last in a sequence. -/
def hasInnerBoundary (es : List Element) : Bool := es.tail.dropLast.any isBoundary

end Element

/-- The parts of a rule. -/
inductive RulePart where
  | target
  | result
  | environment
  deriving DecidableEq, Repr

/-- The production that reads a part. -/
def RulePart.production : RulePart → Production
  | target => .target
  | result => .result
  | environment => .environment

/-- An open group: where it begins, its complete branches, the branch being read, and where its
first boundary stands. -/
structure Group where
  position : Position
  branches : List (List Element) := []
  branch : List Element := []
  boundary : Option Position := none

/-- The complete group as an element. -/
def Group.close (g : Group) : Except RuleError Element :=
  if g.branches = [] then
    match g.boundary with
    | some p => .error (.defective .environment .optionalBoundary p)
    | none => .ok (.optional g.branch)
  else
    let branches := g.branches ++ [g.branch]
    if branches.any Element.hasInnerBoundary then
      .error (.defective .environment .innerBoundary g.position)
    else .ok (.disjunction branches)

/-- A rule half read: the complete parts with their places, the elements of the present part with
theirs, the open groups, innermost first, and an open bracket. -/
structure Draft where
  part : RulePart := .target
  /-- Where the present part begins, once its first token is there. -/
  start : Option Position := none
  elements : List (Element × Position) := []
  groups : List Group := []
  bracket : Option Bracket := none
  target : List Element := []
  targetStart : Position := .start
  result : List Element := []
  resultStart : Position := .start

namespace Draft

/-- Adds an element that begins at `p` to the innermost open group or to the part. -/
def push (d : Draft) (e : Element) (p : Position) : Except RuleError Draft :=
  match d.groups with
  | [] => .ok { d with elements := d.elements ++ [(e, p)] }
  | g :: outer =>
    if e.isPlaceholder then .error (.defective .environment .optionalPlaceholder p)
    else
      let boundary := if e.isBoundary then g.boundary.or (some p) else g.boundary
      .ok { d with groups := { g with branch := g.branch ++ [e], boundary } :: outer }

/-- The rule of a draft whose environment is complete; `environmentStart` is where that begins. -/
def complete (d : Draft) (environmentStart : Position) : Except RuleError (Rule × Position) :=
  let environment := d.elements.map (·.1)
  if d.result.any (fun | .compound _ => true | _ => false) then
    .error (.defective .rule .compoundInResult d.resultStart)
  else if d.result.any (fun | .set (.category _) => true | _ => false) then
    .error (.defective .rule .categoryInResult d.resultStart)
  else if d.target = [] then .error (.defective .rule .emptyTarget d.targetStart)
  else if environment.countP Element.isPlaceholder ≠ 1 then
    .error (.defective .environment .placeholderCount environmentStart)
  else
    match d.elements.tail.dropLast.find? (·.1.isBoundary) with
    | some (_, p) => .error (.defective .rule .innerBoundary p)
    | none => .ok (⟨d.target, d.result, Element.settleAll true environment⟩, d.targetStart)

/-- Ends the present part, which begins at `start`, at a separator. -/
def separate (d : Draft) (start : Position) : Draft :=
  match d.part with
  | .target =>
    { part := .result, target := d.elements.map (·.1), targetStart := start }
  | _ =>
    { d with
      part := .environment, start := none, elements := []
      result := d.elements.map (·.1), resultStart := start }

/-- What may come next in a part outside groups. -/
def expected : RulePart → List TokenKind
  | .target => [.word, .identifier, .openBracket, .openParen, .slash, .arrow]
  | .result => [.word, .openBracket, .slash]
  | .environment => [.word, .identifier, .placeholder, .boundary, .openBracket, .openParen]

/-- What may come next in a group. -/
def expectedInGroup : List TokenKind :=
  [.word, .identifier, .openBracket, .openParen, .pipe, .closeParen]

/-- A token ends the present part, outside groups. -/
def endsPart (part : RulePart) (k : TokenKind) : Bool :=
  match part with
  | .target => k = .slash || k = .arrow
  | .result => k = .slash
  | .environment => k = .newline || k = .endOfFile

/-- Goes on with a draft unless making it failed. -/
def proceed : Except RuleError Draft → Progress Draft (Except RuleError (Rule × Position))
  | .ok d => .more d
  | .error e => .failed e

/-- Reads one token of a rule. -/
def step (known : List Text) (d : Draft) (t : Token) :
    Progress Draft (Except RuleError (Rule × Position)) :=
  let start := d.start.getD t.position
  let d := { d with start := some start }
  match d.bracket with
  | some b =>
    match b.step t with
    | .more b => .more { d with bracket := some b }
    | .done e => proceed ({ d with bracket := none }.push e b.position)
    | .failed e => .failed e
  | none =>
    match t.kind, d.groups with
    | .pipe, g :: outer =>
      .more { d with
        groups := { g with branches := g.branches ++ [g.branch], branch := [] } :: outer }
    | .closeParen, g :: outer =>
      match g.close with
      | .ok e => proceed ({ d with groups := outer }.push e g.position)
      | .error e => .failed e
    | kind, groups =>
      if groups.isEmpty && endsPart d.part kind then
        if d.part = .environment then .done (d.complete start) else .more (d.separate start)
      else if kind = .word then
        proceed (d.push
          (if t.text ∈ known then .set (.category t.text) else .utterance t.text) t.position)
      else if kind = .identifier then proceed (d.push (.set (.category t.text)) t.position)
      else if kind = .openBracket then
        .more { d with bracket := some { position := t.position } }
      else if kind = .openParen ∧ d.part ≠ .result then
        .more { d with groups := { position := t.position } :: d.groups }
      else if kind = .placeholder ∧ d.part = .environment then
        proceed (d.push .placeholder t.position)
      else if kind = .boundary ∧ d.part = .environment then
        proceed (d.push (.boundary .finish) t.position)
      else
        .failed (.ofToken d.part.production
          (if groups.isEmpty then expected d.part else expectedInGroup) t)

/-- Reads a rule up to the end of its line. -/
def read (known : List Text) (d : Draft) : List Token → Reading (Rule × Position)
  | [] => .endless d.part.production (expected d.part)
  | t :: ts =>
    match d.step known t with
    | .more d => read known d ts
    | .done rule => .finish rule t ts
    | .failed e => .fail e t ts

end Draft

/-! ## Whole files -/

namespace Statement

/-- The kinds of statement. -/
inductive Form where
  | category (name : Text)
  | featureSet (name : Text)
  | rule

/-- The kind of the statement that begins a list of tokens: a name before an opening brace begins a
category, a bracketed name a feature-set, and all else a rule. -/
def form : List Token → Form
  | a :: b :: rest =>
    if a.isName && b.kind = .openBrace then .category a.text
    else
      match rest with
      | c :: d :: _ =>
        if a.kind = .openBracket && b.isName && c.kind = .closeBracket && d.kind = .openBrace then
          .featureSet b.text
        else .rule
      | _ => .rule
  | _ => .rule

/-- Reads the statement that begins a list of tokens; `known` are the categories already read. -/
def read (known : List Text) (tokens : List Token) : Reading Statement :=
  match form tokens with
  | .category name =>
    let r := (Category.new name).readMembers known none (tokens.drop 2)
    ⟨r.result.map category, r.rest⟩
  | .featureSet name =>
    let r := (FeatureSet.new name).readMembers .between (tokens.drop 4)
    ⟨r.result.map featureSet, r.rest⟩
  | .rule =>
    let r := Draft.read known {} tokens
    ⟨r.result.map fun placed => rule placed.1 placed.2, r.rest⟩

end Statement

/-! ## Reading consumes tokens

What a reader leaves is an end of the tokens that it is given. -/

theorem skipLine_suffix : ∀ ts : List Token, skipLine ts <:+ ts
  | [] => List.suffix_refl _
  | t :: ts => by
    rw [skipLine]
    split
    · exact List.suffix_cons ..
    · split
      · exact List.suffix_refl _
      · exact (skipLine_suffix ts).trans (List.suffix_cons ..)

theorem recover_suffix (t : Token) (ts : List Token) : recover t ts <:+ ts := by
  unfold recover
  split
  · exact List.suffix_refl _
  · exact skipLine_suffix ts

namespace Reading

variable {α : Type} {t : Token} {ts : List Token}

theorem fail_suffix (e : RuleError) : (fail (α := α) e t ts).rest <:+ t :: ts :=
  (recover_suffix t ts).trans (List.suffix_cons ..)

theorem finish_suffix (r : Except RuleError α) : (finish r t ts).rest <:+ t :: ts := by
  unfold finish
  dsimp only
  split
  · exact List.suffix_cons ..
  · exact List.suffix_refl _

theorem declared_suffix (p : Production) (x : α) : (declared p x ts).rest <:+ ts := by
  unfold declared
  split
  · exact List.suffix_refl _
  · split
    · exact finish_suffix _
    · exact fail_suffix _

end Reading

theorem Category.readMembers_suffix (known : List Text) :
    ∀ (ts : List Token) (c : Category) (b : Option Bracket),
      (c.readMembers known b ts).rest <:+ ts
  | [], c, b => by cases b <;> exact List.suffix_refl _
  | t :: ts, c, some b => by
    have ih c b := (readMembers_suffix known ts c b).trans (List.suffix_cons t ts)
    rw [readMembers]
    split
    · exact ih ..
    · exact ih ..
    · exact Reading.fail_suffix _
    · exact Reading.fail_suffix _
  | t :: ts, c, none => by
    have ih c b := (readMembers_suffix known ts c b).trans (List.suffix_cons t ts)
    rw [readMembers]
    split
    · split <;> exact ih ..
    · exact ih ..
    · exact ih ..
    · exact ih ..
    · exact (Reading.declared_suffix ..).trans (List.suffix_cons ..)
    · exact Reading.fail_suffix _

theorem FeatureSet.readMembers_suffix : ∀ (ts : List Token) (f : FeatureSet) (s : Slot),
    (f.readMembers s ts).rest <:+ ts
  | [], f, s => by cases s <;> exact List.suffix_refl _
  | t :: ts, f, .base b => (readMembers_suffix ts ..).trans (List.suffix_cons ..)
  | t :: ts, f, .arrow b => by
    rw [readMembers]
    split
    · split
      · exact (readMembers_suffix ts ..).trans (List.suffix_cons ..)
      · exact Reading.fail_suffix _
    · exact Reading.fail_suffix _
  | t :: ts, f, .between => by
    have ih f s := (readMembers_suffix ts f s).trans (List.suffix_cons t ts)
    rw [readMembers]
    split
    · split <;> exact ih ..
    · exact ih ..
    · exact (Reading.declared_suffix ..).trans (List.suffix_cons ..)
    · exact Reading.fail_suffix _

namespace Draft

theorem proceed_ne_done (d : Except RuleError Draft) (r : Except RuleError (Rule × Position)) :
    proceed d ≠ .done r := by
  cases d <;> exact fun h => nomatch h

/-- Only an environment is followed by the end of the rule. -/
theorem part_of_step_done {known : List Text} {d : Draft} {t : Token}
    {r : Except RuleError (Rule × Position)} (h : d.step known t = .done r) :
    d.part = .environment := by
  unfold step at h
  dsimp only at h
  repeat' split at h
  all_goals first
    | assumption
    | cases h
    | exact absurd h (proceed_ne_done _ _)

theorem read_suffix (known : List Text) :
    ∀ (ts : List Token) (d : Draft), (d.read known ts).rest <:+ ts
  | [], _ => List.suffix_refl _
  | t :: ts, d => by
    rw [read]
    split
    · exact (read_suffix known ts _).trans (List.suffix_cons ..)
    · exact Reading.finish_suffix _
    · exact Reading.fail_suffix _

theorem read_length_lt (known : List Text) {d : Draft} (h : d.part ≠ .environment) (t : Token)
    (ts : List Token) : (d.read known (t :: ts)).rest.length < (t :: ts).length := by
  rw [read]
  split
  · exact Nat.lt_succ_of_le (read_suffix known ts _).length_le
  · rename_i hd
    exact absurd (part_of_step_done hd) h
  · exact Nat.lt_succ_of_le (recover_suffix t ts).length_le

end Draft

namespace Statement

/-- A statement leaves an end of the tokens. -/
theorem read_suffix (known : List Text) (ts : List Token) : (read known ts).rest <:+ ts := by
  unfold read
  split
  · exact (Category.readMembers_suffix ..).trans (List.drop_suffix ..)
  · exact (FeatureSet.readMembers_suffix ..).trans (List.drop_suffix ..)
  · exact Draft.read_suffix ..

theorem read_rest_length (known : List Text) (t : Token) (ts : List Token) :
    (read known (t :: ts)).rest.length < (t :: ts).length := by
  unfold read
  split
  · refine Nat.lt_of_le_of_lt (Category.readMembers_suffix known ((t :: ts).drop 2) ..).length_le ?_
    simp only [List.length_drop, List.length_cons]
    omega
  · refine Nat.lt_of_le_of_lt (FeatureSet.readMembers_suffix ((t :: ts).drop 4) ..).length_le ?_
    simp only [List.length_drop, List.length_cons]
    omega
  · exact Draft.read_length_lt known (by decide) t ts

/-- The name that a statement makes known as a category. -/
def declaredCategory : Except RuleError Statement → List Text
  | .ok (category c) => [c.name]
  | _ => []

/-- What a file has at some line: a statement, or what is wrong there. -/
structure Entry where
  line : Nat
  result : Except RuleError Statement

/-- The statements of a list of tokens, in order; `known` are the categories already read. -/
def readFrom (known : List Text) : List Token → List Entry
  | [] => []
  | t :: ts =>
    if t.kind = .newline then readFrom known ts
    else if t.kind = .endOfFile then []
    else
      let r := read known (t :: ts)
      ⟨t.position.line, r.result⟩ :: readFrom (declaredCategory r.result ++ known) r.rest
termination_by ts => ts.length
decreasing_by
  · exact Nat.lt_succ_self _
  · exact read_rest_length known t ts

/-- The statements of a list of tokens. -/
def readTokens (tokens : List Token) : List Entry := readFrom [] (Cursor.closed tokens)

/-- The statements of a rule file. -/
def readAll (source : Text) : List Entry := readFrom [] (Token.tokenize source)

end Statement

end SoundChange
