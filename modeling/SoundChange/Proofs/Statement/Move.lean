import SoundChange.Proofs.Statement.File
import SoundChange.Proofs.Statement.LogicalLine
import SoundChange.Proofs.Statement.Readable
import SoundChange.Proofs.Statement.Turn

/-!
# Reading further down a file

The same text some lines further down is read alike, with every place that many lines further down
(`Statement.readFrom_down`). For rules this is shown of drafts: `Draft.Moves more k d d'` says that
`d'` stands `k` lines below `d`, and that its reader knows `more` categories, so that some texts of
`d` are references in `d'`. Each token keeps this (`Draft.Moves.step`).
-/

namespace SoundChange

variable {α : Type} {k : Nat} {more known : List Text} {p q : Position} {t e : Token}
  {ts : List Token}

/-! ## Places -/

/-- The place `k` lines further down. -/
def Position.down (k : Nat) (p : Position) : Position := ⟨p.line + k, p.column⟩

theorem Position.down_down (j k : Nat) (p : Position) : (p.down j).down k = p.down (j + k) := by
  rw [down, down, down, Nat.add_assoc]

theorem Position.after_down (k : Nat) (p : Position) (x : Text) :
    (p.down k).after x = (p.after x).down k := by
  induction x generalizing p with
  | nil => rfl
  | cons c cs ih =>
    have hnext : (p.down k).next c = (p.next c).down k := by
      unfold next down
      split
      · simp only [Nat.add_right_comm]
      · rfl
    have hcons (p : Position) : p.after (c :: cs) = (p.next c).after cs := rfl
    rw [hcons, hnext, ih, hcons]

/-- The error in a file whose lines are `k` further down. -/
def RuleError.down (k : Nat) : RuleError → RuleError
  | stray text p => stray text (p.down k)
  | unexpected production expected found p => unexpected production expected found (p.down k)
  | defective production defect p => defective production defect (p.down k)
  | e => e

namespace Token

def down (k : Nat) (t : Token) : Token := { t with position := t.position.down k }

@[simp] theorem kind_down (k : Nat) (t : Token) : (t.down k).kind = t.kind := rfl

@[simp] theorem text_down (k : Nat) (t : Token) : (t.down k).text = t.text := rfl

@[simp] theorem position_down (k : Nat) (t : Token) : (t.down k).position = t.position.down k := rfl

@[simp] theorem isName_down (k : Nat) (t : Token) : (t.down k).isName = t.isName := rfl

theorem tokenizeFrom_down (k depth : Nat) (p : Position) (x : Text) :
    tokenizeFrom depth (p.down k) x = (tokenizeFrom depth p x).map (down k) := by
  induction depth, p, x using lexed.induct with
  | case1 depth p => rw [tokenizeFrom, tokenizeFrom]; rfl
  | case2 depth p c cs ih =>
    have hlexeme (lexeme : Lexeme) :
        ofLexeme? depth (p.down k) lexeme = (ofLexeme? depth p lexeme).map (down k) := by
      unfold ofLexeme?
      split
      · rfl
      · split <;> rfl
    rw [tokenizeFrom_cons, tokenizeFrom_cons, Position.after_down, ih, hlexeme, List.map_append]

end Token

@[simp] theorem RuleError.ofToken_down (production : Production) (expected : List TokenKind)
    (t : Token) : ofToken production expected (t.down k) =
      (ofToken production expected t).down k := by
  unfold ofToken
  rw [Token.kind_down]
  split <;> rfl

/-- What is found `k` lines further down, where `f` moves a value. -/
def RuleError.downIn (f : α → α) (k : Nat) : Except RuleError α → Except RuleError α
  | .ok a => .ok (f a)
  | .error e => .error (e.down k)

namespace Reading

/-- The reading of the same tokens `k` lines further down, where `f` moves a value. -/
def down (f : α → α) (k : Nat) (r : Reading α) : Reading α :=
  ⟨RuleError.downIn f k r.result, r.rest.map (Token.down k)⟩

variable {f : α → α}

theorem skipLine_down (ts : List Token) :
    skipLine (ts.map (Token.down k)) = (skipLine ts).map (Token.down k) := by
  induction ts with
  | nil => rfl
  | cons t ts ih =>
    rw [List.map_cons, skipLine, skipLine, ih, Token.kind_down]
    split
    · rfl
    · split <;> rfl

theorem fail_down (f : α → α) (error : RuleError) (t : Token) (ts : List Token) :
    fail (error.down k) (t.down k) (ts.map (Token.down k)) = (fail error t ts).down f k := by
  rw [fail, fail, down, RuleError.downIn, recover, recover, skipLine_down, Token.kind_down]
  split <;> rfl

theorem finish_down (f : α → α) (result : Except RuleError α) (t : Token) (ts : List Token) :
    finish (RuleError.downIn f k result) (t.down k) (ts.map (Token.down k)) =
      (finish result t ts).down f k := by
  rw [finish, finish, down, Token.kind_down]
  by_cases ht : t.kind = .newline
  · rw [if_pos ht, if_pos ht]
  · rw [if_neg ht, if_neg ht, List.map_cons]

theorem declared_down (production : Production) (a : α) (ts : List Token) :
    declared production a (ts.map (Token.down k)) = (declared production a ts).down id k := by
  cases ts with
  | nil => rfl
  | cons t ts =>
    rw [List.map_cons, declared, declared, Token.kind_down]
    split
    · exact finish_down id (.ok a) t ts
    · rw [RuleError.ofToken_down]
      exact fail_down id _ t ts

/-- What is made of a reading is moved with it. -/
theorem down_map {β : Type} {g : α → β} {f' : β → β} {r r' : Reading α}
    (hg : ∀ a, g (f a) = f' (g a)) (hr : r' = r.down f k) :
    ⟨r'.result.map g, r'.rest⟩ = (⟨r.result.map g, r.rest⟩ : Reading β).down f' k := by
  subst hr
  obtain ⟨result, rest⟩ := r
  cases result with
  | ok a => exact congrArg (Reading.mk · _) (congrArg Except.ok (hg a))
  | error error => rfl

end Reading

/-! ## Set references and declarations -/

namespace Bracket

def down (k : Nat) (b : Bracket) : Bracket := { b with position := b.position.down k }

/-- What a token makes of a bracket, further down. -/
def moved (k : Nat) : Progress Bracket Element → Progress Bracket Element
  | .more b => .more (b.down k)
  | .done e => .done e
  | .failed error => .failed (error.down k)

theorem step_down (b : Bracket) (k : Nat) (t : Token) :
    (b.down k).step (t.down k) = moved k (b.step t) := by
  have helement : element b.refs (t.position.down k) =
      RuleError.downIn id k (element b.refs t.position) := by
    unfold element
    split <;> rfl
  unfold step
  dsimp only [down, Token.kind_down, Token.text_down, Token.position_down]
  split
  · have hname : (t.down k).isName = t.isName := Token.isName_down k t
    cases h : t.isName with
    | true =>
      rw [if_pos rfl, if_pos (hname.trans h)]
      rfl
    | false =>
      rw [if_neg Bool.false_ne_true, if_neg (ne_true_of_eq_false (hname.trans h)),
        RuleError.ofToken_down]
      rfl
  · split
    · rfl
    · rfl
    · rfl
    · rfl
    · rw [helement]
      cases element b.refs t.position <;> rfl
    · rw [RuleError.ofToken_down]
      rfl

end Bracket

theorem Category.readMembers_down (hts : ∃ e ∈ ts, e.EndsLine) (c : Category) (b : Option Bracket) :
    c.readMembers known (b.map (Bracket.down k)) (ts.map (Token.down k)) =
      (c.readMembers known b ts).down id k := by
  induction ts generalizing c b with
  | nil => exact absurd hts (by simp)
  | cons t ts ih =>
    have hnext (ht : ¬ t.EndsLine) := ih (exists_endsLine_of_cons hts ht)
    rw [List.map_cons]
    cases b with
    | some b =>
      rw [Option.map_some, readMembers, readMembers, b.step_down]
      have hopen (h : ∀ error, b.step t ≠ .failed error) : ¬ t.EndsLine := fun hend => by
        obtain ⟨error, herror⟩ := b.step_of_endsLine hend
        exact h error herror
      cases hstep : b.step t with
      | more b' => exact hnext (hopen (by simp [hstep])) c (some b')
      | done e =>
        have ht := hopen (by simp [hstep])
        cases e with
        | set ref => exact hnext ht (c.addInclude ref) none
        | _ => exact Reading.fail_down id (.defective .category .compoundInCategory b.position) t ts
      | failed error => exact Reading.fail_down id error t ts
    | none =>
      rw [Option.map_none, readMembers, readMembers, Token.kind_down]
      split
      · rename_i hk
        rw [Token.text_down]
        split
        · exact hnext (Token.not_endsLine_of_kind hk (by decide)) _ none
        · exact hnext (Token.not_endsLine_of_kind hk (by decide)) _ none
      · rename_i hk
        exact hnext (Token.not_endsLine_of_kind hk (by decide)) _ none
      · rename_i hk
        exact hnext (Token.not_endsLine_of_kind hk (by decide)) c (some { position := t.position })
      · rename_i hk
        exact hnext (Token.not_endsLine_of_kind hk (by decide)) c none
      · exact Reading.declared_down .category c ts
      · rw [RuleError.ofToken_down]
        exact Reading.fail_down id _ t ts

/-- The slot of tokens that stand `k` lines further down. -/
def FeatureSet.Slot.down (k : Nat) : FeatureSet.Slot → FeatureSet.Slot
  | between => between
  | base b => base (b.down k)
  | arrow b => arrow (b.down k)

/-- Behind a base form the reader passes the arrow that it has seen there. -/
theorem FeatureSet.readMembers_down (hts : ∃ e ∈ ts, e.EndsLine) (f : FeatureSet) (slot : Slot)
    (hslot : ∀ b, slot = .base b → ts.head?.any (·.kind = .arrow) = true) :
    f.readMembers (slot.down k) (ts.map (Token.down k)) = (f.readMembers slot ts).down id k := by
  induction ts generalizing f slot with
  | nil => exact absurd hts (by simp)
  | cons t ts ih =>
    have hnext (ht : ¬ t.EndsLine) := ih (exists_endsLine_of_cons hts ht)
    rw [List.map_cons]
    cases slot with
    | base b =>
      have harrow : t.kind = .arrow := by simpa using hslot b rfl
      rw [Slot.down, readMembers, readMembers]
      exact hnext (Token.not_endsLine_of_kind harrow (by decide)) f (.arrow b) (by simp)
    | arrow b =>
      rw [Slot.down, readMembers, readMembers, Token.kind_down, Token.text_down, Token.text_down]
      by_cases hk : t.kind = .word
      · rw [if_pos hk, if_pos hk]
        cases f.addPair b.text t.text with
        | ok f' => exact hnext (Token.not_endsLine_of_kind hk (by decide)) f' .between (by simp)
        | error c => exact Reading.fail_down id (.defective .member (.conflict c) b.position) t ts
      · rw [if_neg hk, if_neg hk, RuleError.ofToken_down]
        exact Reading.fail_down id _ t ts
    | between =>
      rw [Slot.down, readMembers, readMembers, Token.kind_down]
      split
      · rename_i hk
        have hhead : (ts.map (Token.down k)).head?.any (·.kind = .arrow) =
            ts.head?.any (·.kind = .arrow) := by
          cases ts <;> rfl
        rw [hhead, Token.text_down]
        by_cases harrow : ts.head?.any (·.kind = .arrow) = true
        · rw [if_pos harrow, if_pos harrow]
          exact hnext (Token.not_endsLine_of_kind hk (by decide)) f (.base t) fun _ _ => harrow
        · rw [if_neg harrow, if_neg harrow]
          exact hnext (Token.not_endsLine_of_kind hk (by decide)) _ .between (by simp)
      · rename_i hk
        exact hnext (Token.not_endsLine_of_kind hk (by decide)) f .between (by simp)
      · exact Reading.declared_down .featureSet f ts
      · rw [RuleError.ofToken_down]
        exact Reading.fail_down id _ t ts

/-! ## Elements -/

namespace Element

mutual

/-- The element where the texts in `more` stand for categories. -/
def recognize (more : List Text) : Element → Element
  | utterance text => ofWord more text
  | set ref => set ref
  | compound refs => compound refs
  | optional body => optional (recognizeAll more body)
  | disjunction branches => disjunction (recognizeBranches more branches)
  | boundary edge => boundary edge
  | placeholder => placeholder

/-- The same for a sequence. -/
def recognizeAll (more : List Text) : List Element → List Element
  | [] => []
  | e :: es => recognize more e :: recognizeAll more es

/-- The same for branches. -/
def recognizeBranches (more : List Text) : List (List Element) → List (List Element)
  | [] => []
  | branch :: branches => recognizeAll more branch :: recognizeBranches more branches

end

variable {es : List Element} {e : Element}

theorem recognizeAll_eq_map (more : List Text) (es : List Element) :
    recognizeAll more es = es.map (recognize more) := by
  induction es with
  | nil => rfl
  | cons e es ih => rw [recognizeAll, ih, List.map_cons]

theorem recognizeBranches_eq_map (more : List Text) (branches : List (List Element)) :
    recognizeBranches more branches = branches.map (recognizeAll more) := by
  induction branches with
  | nil => rfl
  | cons branch branches ih => rw [recognizeBranches, ih, List.map_cons]

mutual

/-- Without names nothing is recognized. -/
theorem recognize_nil : ∀ e : Element, e.recognize [] = e
  | utterance _ => rfl
  | set _ => rfl
  | compound _ => rfl
  | optional body => congrArg optional (recognizeAll_nil body)
  | disjunction branches => congrArg disjunction (recognizeBranches_nil branches)
  | boundary _ => rfl
  | placeholder => rfl

theorem recognizeAll_nil : ∀ es : List Element, recognizeAll [] es = es
  | [] => rfl
  | e :: es => by rw [recognizeAll, recognize_nil e, recognizeAll_nil es]

theorem recognizeBranches_nil : ∀ branches : List (List Element),
    recognizeBranches [] branches = branches
  | [] => rfl
  | branch :: branches => by
    rw [recognizeBranches, recognizeAll_nil branch, recognizeBranches_nil branches]

end

theorem recognize_of_isSet (h : e.isSet = true) : e.recognize more = e := by
  cases e with
  | set ref => rfl
  | compound refs => rfl
  | _ => cases h

@[simp] theorem isBoundary_recognize (more : List Text) (e : Element) :
    (e.recognize more).isBoundary = e.isBoundary := by
  cases e with
  | utterance text =>
    rw [recognize, ofWord]
    split <;> rfl
  | _ => rfl

@[simp] theorem isPlaceholder_recognize (more : List Text) (e : Element) :
    (e.recognize more).isPlaceholder = e.isPlaceholder := by
  cases e with
  | utterance text =>
    rw [recognize, ofWord]
    split <;> rfl
  | _ => rfl

theorem hasInnerBoundary_recognizeAll (more : List Text) (es : List Element) :
    hasInnerBoundary (recognizeAll more es) = hasInnerBoundary es := by
  rw [recognizeAll_eq_map, hasInnerBoundary, hasInnerBoundary, ← List.map_tail, ← List.map_dropLast,
    List.any_map]
  exact List.any_congr rfl fun e => isBoundary_recognize more e

end Element

/-! ## Drafts -/

/-- The group `k` lines further down, where `more` categories are known. -/
def Group.move (more : List Text) (k : Nat) (g : Group) : Group where
  position := g.position.down k
  branches := Element.recognizeBranches more g.branches
  branch := Element.recognizeAll more g.branch
  boundary := g.boundary.map (Position.down k)

theorem Group.close_move (more : List Text) (k : Nat) (g : Group) :
    (g.move more k).close =
      (match g.close with
      | .ok e => .ok (e.recognize more)
      | .error error => .error (error.down k)) := by
  obtain ⟨position, branches, branch, boundary⟩ := g
  cases branches with
  | nil => cases boundary <;> rfl
  | cons first branches =>
    have hall : Element.recognizeBranches more (first :: branches) ++
        [Element.recognizeAll more branch] =
          (first :: branches ++ [branch]).map (Element.recognizeAll more) := by
      rw [Element.recognizeBranches_eq_map, List.map_append]
      rfl
    have hinner :
        ((first :: branches ++ [branch]).map (Element.recognizeAll more)).any
          Element.hasInnerBoundary =
        (first :: branches ++ [branch]).any Element.hasInnerBoundary := by
      rw [List.any_map]
      exact List.any_congr rfl fun es => Element.hasInnerBoundary_recognizeAll more es
    have hne : Element.recognizeBranches more (first :: branches) ≠ [] := List.cons_ne_nil _ _
    rw [close, close, move]
    dsimp only
    rw [if_neg hne, if_neg (List.cons_ne_nil first branches), hall, hinner]
    by_cases hboundary : (first :: branches ++ [branch]).any Element.hasInnerBoundary = true
    · rw [if_pos hboundary, if_pos hboundary]
      rfl
    · rw [if_neg hboundary, if_neg hboundary]
      dsimp only
      rw [Element.recognize, Element.recognizeBranches_eq_map]

theorem RulePart.single?_recognize (part : RulePart) (more known : List Text) (k : Nat)
    (t : Token) : part.single? (more ++ known) (t.down k) =
      (part.single? known t).map (Element.recognize more) := by
  rw [single?, single?, Token.kind_down, Token.text_down]
  split
  · rw [Option.map_some, Element.ofWord_eq, Element.ofWord_eq]
    by_cases hknown : t.text ∈ known
    · rw [if_pos hknown, if_pos (List.mem_append_right _ hknown)]
      rfl
    · rw [if_neg hknown, Element.recognize, Element.ofWord_eq]
      simp only [List.mem_append, hknown, or_false]
  · rfl
  · split <;> rfl
  · split <;> rfl
  · rfl

namespace Draft

variable {d d' : Draft} {e : Element}

/-- The second draft is the first one `k` lines further down, where `more` categories are known. It
does not matter where a part begins that is not there yet. -/
structure Moves (more : List Text) (k : Nat) (d d' : Draft) : Prop where
  part : d'.part = d.part
  start : d'.start = d.start.map (Position.down k)
  elements : d'.elements = d.elements.map fun x => (x.1.recognize more, x.2.down k)
  groups : d'.groups = d.groups.map (Group.move more k)
  bracket : d'.bracket = d.bracket.map (Bracket.down k)
  target : d'.target = d.target.map (Element.recognize more)
  targetStart : d.part ≠ .target → d'.targetStart = d.targetStart.down k
  result : d'.result = d.result.map (Element.recognize more)
  resultStart : d.part = .environment → d'.resultStart = d.resultStart.down k

theorem moves_empty (more : List Text) (k : Nat) : Moves more k {} {} :=
  ⟨rfl, rfl, rfl, rfl, rfl, rfl, nofun, rfl, nofun⟩

/-- What a token makes of a draft further down. -/
inductive Follows (more : List Text) (k : Nat) :
    Progress Draft (Except RuleError (Rule × Position)) →
    Progress Draft (Except RuleError (Rule × Position)) → Prop where
  | more {d d' : Draft} (h : Moves more k d d') : Follows more k (.more d) (.more d')
  | failed (error : RuleError) : Follows more k (.failed error) (.failed (error.down k))
  | done {d d' : Draft} (h : Moves more k d d') (hpart : d.part = .environment) (p : Position) :
    Follows more k (.done (d.complete p)) (.done (d'.complete (p.down k)))

namespace Moves

variable (h : Moves more k d d')
include h

theorem startAt_eq (p : Position) : d'.startAt (p.down k) = (d.startAt p).down k := by
  rw [startAt, startAt, h.start]
  cases d.start <;> rfl

theorem begun (p : Position) : Moves more k (d.begun p) (d'.begun (p.down k)) :=
  { h with start := congrArg some (h.startAt_eq p) }

theorem push (e : Element) (p : Position) :
    Follows more k (proceed (d.push e p)) (proceed (d'.push (e.recognize more) (p.down k))) := by
  rw [Draft.push, Draft.push, h.groups]
  cases hg : d.groups with
  | nil =>
    refine .more { h with elements := ?_, groups := rfl }
    rw [h.elements, List.map_append]
    rfl
  | cons g outer =>
    rw [List.map_cons, Element.isPlaceholder_recognize, Element.isBoundary_recognize]
    dsimp only
    split
    · exact .failed (.defective .environment .optionalPlaceholder p)
    · refine .more { h with groups := ?_ }
      rw [List.map_cons]
      rw [Group.move, Group.move, Element.recognizeAll_eq_map, Element.recognizeAll_eq_map,
        List.map_append]
      split
      · cases g.boundary <;> rfl
      · rfl

theorem separate (hpart : d.part ≠ .environment) (p : Position) :
    Moves more k (d.separate p) (d'.separate (p.down k)) := by
  have helements : d'.elements.map (·.1) = (d.elements.map (·.1)).map (Element.recognize more) := by
    rw [h.elements, List.map_map, List.map_map]
    rfl
  rw [Draft.separate, Draft.separate, h.part]
  cases hd : d.part with
  | environment => exact absurd hd hpart
  | target =>
    refine ⟨rfl, rfl, rfl, rfl, rfl, helements, fun _ => rfl, rfl, fun hpart => ?_⟩
    cases hpart
  | result =>
    exact { h with
      part := rfl, start := rfl, elements := rfl, result := helements
      targetStart := fun _ => h.targetStart (by rw [hd]; decide)
      resultStart := fun _ => rfl }

/-- A token makes the same of a draft further down. -/
theorem step (known : List Text) (t : Token) :
    Follows more k (d.step known t) (d'.step (more ++ known) (t.down k)) := by
  have hbegun := h.begun t.position
  have hturn := turn known d t
  have hsingle := d.part.single?_recognize more known k t
  have hbracket {b : Option Bracket} (hb : d.bracket = b) :
      d'.bracket = b.map (Bracket.down k) := by
    rw [h.bracket, hb]
  have hgroups {gs : List Group} (hg : d.groups = gs) :
      d'.groups = gs.map (Group.move more k) := by
    rw [h.groups, hg]
  generalize d.step known t = r at hturn
  cases hturn with
  | @refMore b b' hb hstep =>
    have hstep' : (b.down k).step (t.down k) = .more (b'.down k) := by rw [b.step_down, hstep]; rfl
    rw [(Turn.refMore (hbracket hb) hstep').eq_step]
    exact .more { hbegun with bracket := rfl }
  | @refDone b e hb hstep =>
    have hstep' : (b.down k).step (t.down k) = .done e := by rw [b.step_down, hstep]; rfl
    rw [(Turn.refDone (hbracket hb) hstep').eq_step]
    have hclosed : Moves more k { d.begun t.position with bracket := none }
        { d'.begun (t.down k).position with bracket := none } := { hbegun with bracket := rfl }
    have hpush := hclosed.push e b.position
    rwa [Element.recognize_of_isSet (Bracket.isSet_of_step hstep)] at hpush
  | @refFailed b error hb hstep =>
    have hstep' : (b.down k).step (t.down k) = .failed (error.down k) := by
      rw [b.step_down, hstep]
      rfl
    rw [(Turn.refFailed (hbracket hb) hstep').eq_step]
    exact .failed error
  | @branch g outer hb hg hk =>
    rw [(Turn.branch (t := t.down k) (hbracket hb) (hgroups hg) hk).eq_step]
    refine .more { hbegun with groups := ?_ }
    rw [List.map_cons]
    rw [Group.move, Group.move, Element.recognizeBranches_eq_map, Element.recognizeBranches_eq_map,
      List.map_append]
    rfl
  | @close g outer e hb hg hk hclose =>
    have hclose' : (g.move more k).close = .ok (e.recognize more) := by rw [g.close_move, hclose]
    rw [(Turn.close (t := t.down k) (hbracket hb) (hgroups hg) hk hclose').eq_step]
    have hclosed : Moves more k { d.begun t.position with groups := outer }
        { d'.begun (t.down k).position with groups := outer.map (Group.move more k) } :=
      { hbegun with groups := rfl }
    exact hclosed.push e g.position
  | @closeFailed g outer error hb hg hk hclose =>
    have hclose' : (g.move more k).close = .error (error.down k) := by rw [g.close_move, hclose]
    rw [(Turn.closeFailed (t := t.down k) (hbracket hb) (hgroups hg) hk hclose').eq_step]
    exact .failed error
  | separate hb hg hpart hk =>
    rw [(Turn.separate (t := t.down k) (hbracket hb) (hgroups hg) (h.part ▸ hpart)
      (h.part ▸ hk)).eq_step, Token.position_down, h.startAt_eq]
    exact .more (hbegun.separate hpart _)
  | finish hb hg hpart hk =>
    rw [(Turn.finish (t := t.down k) (hbracket hb) (hgroups hg) (h.part.trans hpart) hk).eq_step,
      Token.position_down, h.startAt_eq]
    exact .done hbegun hpart _
  | @single e hb he =>
    have he' : d'.part.single? (more ++ known) (t.down k) = some (e.recognize more) := by
      rw [h.part, hsingle, he]
      rfl
    rw [(Turn.single (hbracket hb) he').eq_step]
    exact hbegun.push e t.position
  | openBracket hb hk =>
    rw [(Turn.openBracket (t := t.down k) (hbracket hb) hk).eq_step]
    exact .more { hbegun with bracket := rfl }
  | openGroup hb hk hpart =>
    rw [(Turn.openGroup (t := t.down k) (hbracket hb) hk (h.part ▸ hpart)).eq_step]
    refine .more { hbegun with groups := ?_ }
    rw [List.map_cons, h.groups]
    rfl
  | unexpected hb hgroup hpart hnone hk hparen =>
    have hempty : d'.groups.isEmpty = d.groups.isEmpty := by
      rw [h.groups]
      cases d.groups <;> rfl
    have hturn' : Turn (more ++ known) d' (t.down k) (.failed (.ofToken d'.part.production
        (if d'.groups.isEmpty then expected d'.part else expectedInGroup) (t.down k))) := by
      refine .unexpected (hbracket hb) (fun hk => hgroups (hgroup hk)) ?_ ?_ hk
        fun hk => h.part.trans (hparen hk)
      · rw [h.part]
        exact fun hk hg => hpart hk (List.map_eq_nil_iff.mp (h.groups.symm.trans hg))
      · rw [h.part, hsingle, hnone]
        rfl
    rw [hturn'.eq_step, h.part, hempty, RuleError.ofToken_down]
    exact .failed _

end Moves

/-- Where the same categories are known, the same rule or error is found further down. -/
theorem Moves.complete (h : Moves [] k d d') (hpart : d.part = .environment) (p : Position) :
    d'.complete (p.down k) =
      RuleError.downIn (Prod.map id (Position.down k)) k (d.complete p) := by
  have hself : Element.recognize [] = id := funext Element.recognize_nil
  have htarget : d'.target = d.target := by rw [h.target, hself, List.map_id]
  have hresult : d'.result = d.result := by rw [h.result, hself, List.map_id]
  have helements : d'.elements = d.elements.map fun x => (x.1, x.2.down k) := by
    rw [h.elements, hself]
    rfl
  have hfirst : d'.elements.map (·.1) = d.elements.map (·.1) := by
    rw [helements, List.map_map]
    rfl
  have hfind : d'.elements.tail.dropLast.find? (·.1.isBoundary) =
      (d.elements.tail.dropLast.find? (·.1.isBoundary)).map fun x => (x.1, x.2.down k) := by
    rw [helements, ← List.map_tail, ← List.map_dropLast, List.find?_map]
    rfl
  unfold Draft.complete
  dsimp only
  rw [hresult, htarget, hfirst, hfind, h.targetStart (by rw [hpart]; decide), h.resultStart hpart]
  simp only [apply_ite (RuleError.downIn (Prod.map id (Position.down k)) k)]
  cases d.elements.tail.dropLast.find? (·.1.isBoundary) <;> rfl

theorem Moves.read (h : Moves [] k d d') (hts : ∃ e ∈ ts, e.EndsLine) :
    d'.read known (ts.map (Token.down k)) =
      (d.read known ts).down (Prod.map id (Position.down k)) k := by
  induction ts generalizing d d' with
  | nil => exact absurd hts (by simp)
  | cons t ts ih =>
    have hfollows := h.step known t
    rw [List.nil_append] at hfollows
    rw [List.map_cons, Draft.read, Draft.read]
    generalize hstep : d.step known t = r at hfollows
    generalize d'.step known (t.down k) = r' at hfollows
    cases hfollows with
    | more h =>
      exact ih h (exists_endsLine_of_cons hts fun hend => step_of_endsLine hend hstep)
    | failed error => exact Reading.fail_down _ error t ts
    | done h hpart p =>
      dsimp only
      rw [h.complete hpart]
      exact Reading.finish_down _ _ t ts

end Draft

/-! ## Statements -/

namespace Statement

/-- The statement `k` lines further down. -/
def down (k : Nat) : Statement → Statement
  | rule r p => rule r (p.down k)
  | s => s

theorem form_down (ts : List Token) : form (ts.map (Token.down k)) = form ts := by
  match ts with
  | [] | [_] | [_, _] | [_, _, _] | _ :: _ :: _ :: _ :: _ => rfl

/-- Statements are read alike further down. -/
theorem read_down (hts : ∃ e ∈ ts, e.EndsLine) :
    read known (ts.map (Token.down k)) = (read known ts).down (down k) k := by
  rw [read, read, form_down]
  cases hform : form ts with
  | category name =>
    obtain ⟨a, b, rest, rfl, ha, hb⟩ := form_eq_category hform
    have hrest := exists_endsLine_of_cons (exists_endsLine_of_cons hts
      (Token.not_endsLine_of_isName ha)) (Token.not_endsLine_of_kind hb (by decide))
    exact Reading.down_map (fun _ => rfl) ((Category.new name).readMembers_down hrest none)
  | featureSet name =>
    obtain ⟨a, b, c, d, rest, rfl, ha, hb, hc, hd⟩ := form_eq_featureSet hform
    have hrest := exists_endsLine_of_cons (exists_endsLine_of_cons (exists_endsLine_of_cons
      (exists_endsLine_of_cons hts (Token.not_endsLine_of_kind ha (by decide)))
      (Token.not_endsLine_of_isName hb)) (Token.not_endsLine_of_kind hc (by decide)))
      (Token.not_endsLine_of_kind hd (by decide))
    exact Reading.down_map (fun _ => rfl)
      ((FeatureSet.new name).readMembers_down hrest .between (by simp))
  | rule =>
    exact Reading.down_map (fun _ => rfl) ((Draft.moves_empty [] k).read hts)

/-- An entry `k` lines further down. -/
def Entry.down (k : Nat) (entry : Entry) : Entry :=
  ⟨entry.line + k, RuleError.downIn (Statement.down k) k entry.result⟩

theorem declaredCategory_down (k : Nat) (result : Except RuleError Statement) :
    declaredCategory (RuleError.downIn (Statement.down k) k result) = declaredCategory result := by
  cases result with
  | error error => rfl
  | ok s => cases s <;> rfl

/-- The last token ends its line. -/
def Closed (ts : List Token) : Prop := ∀ e, ts.getLast? = some e → e.EndsLine

theorem Closed.of_suffix {rest : List Token} (h : Closed ts) (hrest : rest <:+ ts) :
    Closed rest := by
  obtain ⟨before, rfl⟩ := hrest
  refine fun e he => h e ?_
  rw [List.getLast?_append, he]
  rfl

theorem Closed.exists_endsLine (h : Closed (t :: ts)) : ∃ e ∈ t :: ts, e.EndsLine := by
  have hlast : (t :: ts).getLast? = some (ts.getLast?.getD t) := List.getLast?_cons
  exact ⟨_, List.mem_of_getLast? hlast, h _ hlast⟩

/-- The same lines further down have the same entries further down. -/
theorem readFrom_map_down (hts : Closed ts) :
    readFrom known (ts.map (Token.down k)) = (readFrom known ts).map (Entry.down k) := by
  induction known, ts using readFrom.induct with
  | case1 known => rw [List.map_nil, readFrom]; rfl
  | case2 known t ts hnewline ih =>
    rw [List.map_cons, readFrom, readFrom, Token.kind_down, if_pos hnewline, if_pos hnewline]
    exact ih (hts.of_suffix (List.suffix_cons ..))
  | case3 known t ts hnewline hend =>
    rw [List.map_cons, readFrom, readFrom, Token.kind_down, if_neg hnewline, if_neg hnewline,
      if_pos hend, if_pos hend]
    rfl
  | case4 known t ts hnewline hend r =>
    rename_i ih
    have hread : read known (t.down k :: ts.map (Token.down k)) =
        (read known (t :: ts)).down (down k) k := read_down hts.exists_endsLine
    rw [List.map_cons, readFrom, readFrom, Token.kind_down, if_neg hnewline, if_neg hnewline,
      if_neg hend, if_neg hend, hread, List.map_cons]
    refine congrArg₂ _ rfl ?_
    rw [← ih (hts.of_suffix (read_suffix ..))]
    dsimp only [Reading.down]
    rw [declaredCategory_down]

theorem closed_tokenizeFrom (depth : Nat) (p : Position) (x : Text) :
    Closed (Token.tokenizeFrom depth p x) := by
  intro e he
  rw [Token.tokenizeFrom_eq, List.getLast?_concat] at he
  cases he
  exact .inr rfl

/-- A file that begins further down has the same entries further down. -/
theorem readFrom_down (known : List Text) (k depth : Nat) (p : Position) (x : Text) :
    readFrom known (Token.tokenizeFrom depth (p.down k) x) =
      (readFrom known (Token.tokenizeFrom depth p x)).map (Entry.down k) := by
  rw [Token.tokenizeFrom_down, readFrom_map_down (closed_tokenizeFrom depth p x)]

end Statement

end SoundChange
