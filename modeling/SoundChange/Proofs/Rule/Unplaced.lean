import SoundChange.Proofs.Error
import SoundChange.Proofs.Rule.Construction
import SoundChange.SoundLaw

/-!
# Errors of rules have no place

What can go wrong when a rule is made into a table, or a category is declared, is that a name is not
declared, that a result cannot be aligned, or that a table outgrows its limit. None of these errors
has a place in the file (`Rule.raises_table`, `Inventory.raises_declareCategory`). Assembling raises
only what its steps raise (`Assembly.raisesOnly_bind`).
-/

namespace SoundChange

open RuleError (Unplaced)

/-! ## Sets -/

namespace Inventory

variable {i : Inventory}

theorem raises_featureSet (name : Text) : Raises Unplaced (i.featureSet name) := by
  unfold featureSet
  split
  · exact raises_ok
  · exact raises_error rfl

theorem raises_members (ref : SetRef) : Raises Unplaced (i.members ref) := by
  cases ref with
  | category name =>
    rw [members]
    split
    · exact raises_ok
    · split
      · exact raises_ok
      · exact raises_error rfl
  | feature present name => exact (raises_featureSet name).map _

theorem raises_meet (acc : SortedSet Text) (refs : List SetRef) :
    Raises Unplaced (i.meet acc refs) := by
  induction refs generalizing acc with
  | nil => exact raises_ok
  | cons ref refs ih =>
    rw [meet]
    split
    · exact ih _
    · exact raises_error (raises_members ref _ (by assumption))

theorem raises_membersOf (e : Element) : Raises Unplaced (i.membersOf e) := by
  unfold membersOf
  split
  · exact raises_members _
  · exact raises_ok
  · split
    · exact raises_meet _ _
    · exact raises_error (raises_members _ _ (by assumption))
  · exact raises_ok

theorem raises_trie (e : Element) : Raises Unplaced (i.trie e) := (raises_membersOf e).map _

theorem raises_resolve (name : Text) (acc : SortedSet Text) (refs : List SetRef) :
    Raises Unplaced (i.resolve name acc refs) := by
  induction refs generalizing acc with
  | nil => exact raises_ok
  | cons ref refs ih =>
    rw [resolve]
    split
    · exact raises_error rfl
    split
    · exact ih _
    · exact raises_error (raises_members ref _ (by assumption))

/-- A category that cannot be declared is an error without a place. -/
theorem raises_declareCategory (c : Category) : Raises Unplaced (i.declareCategory c) :=
  (raises_resolve c.name c.members c.includes).map _

end Inventory

/-! ## First sets -/

namespace FirstSet

variable {i : Inventory} {target : Except RuleError FirstSet}

mutual

theorem raises_ofElement (h : Raises Unplaced target) :
    ∀ e : Element, Raises Unplaced (ofElement i target e)
  | .utterance _ => raises_ok
  | .set _ => (Inventory.raises_trie _).map _
  | .compound _ => (Inventory.raises_trie _).map _
  | .optional body => (raises_ofSequence h body).map _
  | .disjunction branches => raises_ofBranches h branches
  | .boundary .start => raises_ok
  | .boundary .finish => raises_ok
  | .placeholder => h

theorem raises_ofSequence (h : Raises Unplaced target) :
    ∀ es : List Element, Raises Unplaced (ofSequence i target es)
  | [] => raises_ok
  | e :: es => by
    rw [ofSequence]
    split
    · exact raises_error (raises_ofElement h e _ (by assumption))
    · split
      · exact (raises_ofSequence h es).map _
      · exact raises_ok

theorem raises_ofBranches (h : Raises Unplaced target) :
    ∀ branches : List (List Element), Raises Unplaced (ofBranches i target branches)
  | [] => raises_ok
  | branch :: branches => by
    rw [ofBranches]
    split
    · exact raises_error (raises_ofSequence h branch _ (by assumption))
    · exact (raises_ofBranches h branches).map _

end

theorem raises_ofTarget (es : List Element) : Raises Unplaced (ofTarget i es) :=
  raises_ofSequence raises_ok es

end FirstSet

theorem Emission.raises_replacement (m : Emission) (i : Inventory) (member : Text) :
    Raises Unplaced (m.replacement i member) := by
  unfold replacement
  split
  · exact raises_ok
  · exact raises_ok
  · exact (Inventory.raises_featureSet _).map _
  · exact raises_ok

/-! ## Assembling -/

namespace Assembly

variable {α β : Type} {Q : RuleError → Prop} {p : Assemble α} {f : α → Assemble β}

/-- What goes wrong on assembling is an error of which `Q` holds. -/
def RaisesOnly (Q : RuleError → Prop) (p : Assemble α) : Prop := ∀ σ, Raises Q (p.run σ)

theorem raisesOnly_pure {v : α} : RaisesOnly Q (pure v) := fun _ => raises_ok

theorem raisesOnly_bind (h : RaisesOnly Q p) (hf : ∀ v, RaisesOnly Q (f v)) :
    RaisesOnly Q (p >>= f) := by
  intro σ
  have hrun : (p >>= f).run σ = (p.run σ).bind fun q => (f q.1).run q.2 := rfl
  rw [hrun]
  cases hp : p.run σ with
  | error e => exact raises_error (h σ e hp)
  | ok q => exact hf q.1 q.2

theorem raisesOnly_lift {x : Except RuleError α} (h : Raises Q x) :
    RaisesOnly Q (x : Assemble α) := by
  intro σ
  cases x with
  | error e => exact raises_error (h e rfl)
  | ok v => exact raises_ok

theorem raisesOnly_modifyGet {g : Assembly → α × Assembly} :
    RaisesOnly Q (modifyGet g : Assemble α) := fun _ => raises_ok

theorem raisesOnly_change {g : Automaton → Automaton} : RaisesOnly Q (change g) :=
  raisesOnly_modifyGet

theorem raisesOnly_addState {inTarget : Bool} : RaisesOnly Q (addState inTarget) :=
  raisesOnly_modifyGet

theorem raisesOnly_addTransform {t : Transform} : RaisesOnly Q (addTransform t) :=
  raisesOnly_modifyGet

theorem raisesOnly_addEdge {s t : StateId} {c : Symbol} {n : Option TransformId} :
    RaisesOnly Q (addEdge s c t n) := by
  refine raisesOnly_bind raisesOnly_change fun _ => ?_
  cases n with
  | none => exact raisesOnly_pure
  | some n => exact raisesOnly_change

theorem raisesOnly_spell {inTarget : Bool} {tr : Option (TransformId × TransformId)} :
    ∀ (text : Text) (s : StateId), RaisesOnly Q (spell inTarget tr text s)
  | [], _ => raisesOnly_pure
  | _ :: text, _ => raisesOnly_bind raisesOnly_addState fun next =>
    raisesOnly_bind raisesOnly_addEdge fun _ => raisesOnly_spell text next

variable {i : Inventory} {u : Option TargetUnit} {e : Element} {m : Option Emission}
  {s exit : StateId} {c : Setting} {follow : FirstSet}

theorem raisesOnly_beginUnit {m : Emission} : RaisesOnly Q (beginUnit e m) :=
  raisesOnly_bind raisesOnly_modifyGet fun _ => raisesOnly_bind raisesOnly_addTransform fun _ =>
    raisesOnly_pure

/-- The transform that writes a replacement, or another one if there is nothing to write. -/
theorem raisesOnly_last {replacement : Text} {n : TransformId} {t : Transform} :
    RaisesOnly Q (if replacement.isEmpty then pure n else addTransform t) := by
  split
  · exact raisesOnly_pure
  · exact raisesOnly_addTransform

theorem raisesOnly_closeUnit {member : Text} {place : TransformId → Automaton → Automaton} :
    RaisesOnly Unplaced (closeUnit i u member place) := by
  cases u with
  | none => exact raisesOnly_pure
  | some v =>
    have hend : RaisesOnly Unplaced (endUnit i v member) :=
      raisesOnly_bind (raisesOnly_lift (v.emission.raises_replacement i member)) fun _ =>
        raisesOnly_last
    exact raisesOnly_bind hend fun _ => raisesOnly_change

theorem raisesOnly_readForest : ∀ (forest : Forest) (path : Text) (s : StateId),
    RaisesOnly Unplaced (readForest i u exit path forest s)
  | .empty, _, _ => raisesOnly_pure
  | .branch d isMember below beside, path, s => by
    rw [readForest_branch]
    refine raisesOnly_bind ?_ fun _ => raisesOnly_readForest beside path s
    rw [readArc]
    split
    · refine raisesOnly_bind raisesOnly_change fun _ => ?_
      split
      · exact raisesOnly_closeUnit
      · exact raisesOnly_pure
    · refine raisesOnly_bind raisesOnly_addState fun next => ?_
      refine raisesOnly_bind raisesOnly_addEdge fun _ => ?_
      refine raisesOnly_bind (raisesOnly_readForest below (path ++ [d]) next) fun _ => ?_
      split
      · exact raisesOnly_bind raisesOnly_change fun _ => raisesOnly_closeUnit
      · exact raisesOnly_pure

theorem raisesOnly_readSet : RaisesOnly Unplaced (readSet i e m s) := by
  refine raisesOnly_bind (raisesOnly_lift (Inventory.raises_trie e)) fun trie => ?_
  refine raisesOnly_bind raisesOnly_addState fun exit => ?_
  refine raisesOnly_bind ?_ fun u => ?_
  · cases m with
    | none => exact raisesOnly_pure
    | some m => exact raisesOnly_bind raisesOnly_beginUnit fun _ => raisesOnly_pure
  · exact raisesOnly_bind (raisesOnly_readForest trie.forest [] s) fun _ => raisesOnly_pure

theorem raisesOnly_readText {text : Text} : RaisesOnly Unplaced (readText i text m s) := by
  cases m with
  | none => exact raisesOnly_spell text s
  | some m =>
    refine raisesOnly_bind raisesOnly_modifyGet fun _ => ?_
    refine raisesOnly_bind (raisesOnly_lift (m.raises_replacement i text)) fun replacement => ?_
    refine raisesOnly_bind raisesOnly_addTransform fun null => ?_
    cases replacement.isEmpty with
    | true => exact raisesOnly_spell text s
    | false => exact raisesOnly_bind raisesOnly_addTransform fun _ => raisesOnly_spell text s

theorem raises_emissions (body : List Element) : Raises Unplaced (c.emissions m body) := by
  unfold Setting.emissions
  split
  · exact raises_ok
  · split
    · exact raises_ok
    · exact raises_error rfl

/-- What a setting is made of raises nothing else. -/
structure Setting.Unplaced (c : Setting) : Prop where
  first : Raises RuleError.Unplaced c.first
  readTarget (s : StateId) (follow : FirstSet) :
    RaisesOnly RuleError.Unplaced (c.readTarget s follow)

mutual

theorem raisesOnly_readElement (hc : c.Unplaced) : ∀ (e : Element) {m : Option Emission}
    {follow : FirstSet} {s : StateId}, RaisesOnly Unplaced (readElement c m follow e s)
  | .utterance text, _, _, _ => by
    rw [readElement]
    exact raisesOnly_readText
  | .set ref, _, _, _ => by
    rw [readElement]
    exact raisesOnly_readSet
  | .compound refs, _, _, _ => by
    rw [readElement]
    exact raisesOnly_readSet
  | .optional body, _, _, _ => by
    rw [readElement]
    refine raisesOnly_bind raisesOnly_addState fun _ => ?_
    refine raisesOnly_bind raisesOnly_addState fun _ => ?_
    refine raisesOnly_bind raisesOnly_change fun _ => ?_
    refine raisesOnly_bind raisesOnly_change fun _ => ?_
    refine raisesOnly_bind (raisesOnly_lift (raises_emissions body)) fun _ => ?_
    refine raisesOnly_bind (raisesOnly_readSequence hc body) fun _ => ?_
    exact raisesOnly_bind raisesOnly_change fun _ => raisesOnly_pure
  | .disjunction branches, _, _, _ => by
    rw [readElement]
    refine raisesOnly_bind raisesOnly_addState fun _ => ?_
    refine raisesOnly_bind (raisesOnly_readBranches hc branches) fun _ => ?_
    split
    · exact raisesOnly_pure
    · exact raisesOnly_bind raisesOnly_change fun _ => raisesOnly_pure
  | .boundary edge, _, _, _ => by
    rw [readElement_boundary]
    exact raisesOnly_bind raisesOnly_addState fun _ =>
      raisesOnly_bind raisesOnly_addEdge fun _ => raisesOnly_pure
  | .placeholder, m, follow, s => by
    rw [readElement]
    split
    · exact raisesOnly_pure
    · exact hc.readTarget s follow

theorem raisesOnly_readSequence (hc : c.Unplaced) : ∀ (es : List Element) {ms : List Emission}
    {follow : FirstSet} {s : StateId}, RaisesOnly Unplaced (readSequence c ms follow es s)
  | [], _, _, _ => by
    rw [readSequence]
    exact raisesOnly_pure
  | e :: es, _, _, _ => by
    rw [readSequence]
    refine raisesOnly_bind (raisesOnly_lift ?_) fun _ => ?_
    · exact (FirstSet.raises_ofSequence hc.first es).map _
    · exact raisesOnly_bind (raisesOnly_readElement hc e) fun _ => raisesOnly_readSequence hc es

theorem raisesOnly_readBranches (hc : c.Unplaced) : ∀ (branches : List (List Element))
    {m : Option Emission} {follow : FirstSet} {join s : StateId},
    RaisesOnly Unplaced (readBranches c m follow join branches s)
  | [], _, _, _, _ => by
    rw [readBranches]
    exact raisesOnly_pure
  | [] :: branches, _, _, _, _ => by
    rw [readBranches]
    exact raisesOnly_bind raisesOnly_change fun _ =>
      raisesOnly_bind (raisesOnly_readBranches hc branches) fun _ => raisesOnly_pure
  | (e :: es) :: branches, _, _, _, _ => by
    rw [readBranches]
    refine raisesOnly_bind (raisesOnly_lift (FirstSet.raises_ofSequence hc.first _)) fun _ => ?_
    refine raisesOnly_bind raisesOnly_addState fun _ => ?_
    refine raisesOnly_bind raisesOnly_change fun _ => ?_
    refine raisesOnly_bind (raisesOnly_lift (raises_emissions _)) fun _ => ?_
    refine raisesOnly_bind (raisesOnly_readSequence hc (e :: es)) fun _ => ?_
    refine raisesOnly_bind raisesOnly_change fun _ => ?_
    exact raisesOnly_bind (raisesOnly_readBranches hc branches) fun _ => raisesOnly_pure

end

end Assembly

/-! ## Rules -/

namespace Rule

open Assembly (RaisesOnly raisesOnly_readSequence raisesOnly_pure raisesOnly_bind
  raisesOnly_change)

variable {i : Inventory} {rule : Rule}

theorem raisesOnly_readTarget (s : StateId) (follow : FirstSet) :
    RaisesOnly Unplaced (rule.readTarget i s follow) := by
  rw [readTarget]
  split
  · exact raisesOnly_readSequence
      ⟨FirstSet.raises_ofTarget rule.target, fun _ _ => raisesOnly_pure⟩ rule.target
  · exact fun _ => raises_error rfl

theorem raisesOnly_assemble (strip : Bool) : RaisesOnly Unplaced (rule.assemble i strip) :=
  raisesOnly_bind (raisesOnly_readSequence
    ⟨FirstSet.raises_ofTarget rule.target, raisesOnly_readTarget⟩ _) fun _ => raisesOnly_change

/-- A rule that cannot be made into a table is an error without a place. -/
theorem raises_table (options : CompileOptions) : Raises Unplaced (rule.table i options) := by
  have hautomaton : Raises Unplaced (rule.automaton i options.stripOptionals) := by
    rw [automaton]
    split
    · exact raises_ok
    · exact raises_error (raisesOnly_assemble _ _ _ (by assumption))
  rw [table]
  split
  · exact raises_error (hautomaton _ (by assumption))
  · split
    · exact raises_ok
    · exact raises_error rfl

end Rule

end SoundChange
