import SoundChange.Proofs.FeatureSet
import SoundChange.Proofs.Rule.Language
import SoundChange.Proofs.Rule.WellFormed

/-!
# Derivations

How a rule changes a span of symbols, said without automata. A derivation takes a span to pieces: a
symbol of the environment is kept, and what a unit of the target has read is changed. The pieces say
what is read (`Piece.symbols`), what is written (`Piece.text`) and what is recorded
(`Piece.change?`).

`Emission.shares` says declaratively what each element of a target is replaced by, and
`Emission.Writes` what that makes of a text. `Emission.align_eq_some` and
`Emission.writes_of_replacement` say that rules are assembled accordingly. What a derivation reads
is in the language of the rule (`Rule.mem_language_of_derivation`).
-/

namespace SoundChange

/-- A part of a derivation. -/
inductive Piece where
  /-- A symbol outside the target. -/
  | kept (symbol : Symbol)
  /-- What one unit of the target has read and is replaced by. -/
  | changed (change : Change)
  deriving DecidableEq, Repr

namespace Piece

/-- What a piece reads. -/
def symbols : Piece → List Symbol
  | kept symbol => [symbol]
  | changed change => Symbol.ofText change.replaced

/-- What a piece writes. -/
def text : Piece → Text
  | kept symbol => symbol.char?.toList
  | changed change => change.replacement

/-- What a piece records. -/
def change? : Piece → Option Change
  | kept _ => none
  | changed change => some change

end Piece

/-! ## What elements are replaced by -/

/-- The text of a literal element. -/
def Element.literal : Element → Text
  | utterance text => text
  | _ => []

namespace Emission

variable {i : Inventory} {results es : List Element} {overflow text member : Text}
  {ms : List Emission} {m : Emission}

/-- What the elements of a target sequence are replaced by: each by the result in its place, if
there is one. The last one also gets the text of the results that are left over, and `overflow`. -/
def shares (results : List Element) (overflow : Text) (es : List Element) : List Emission :=
  es.mapIdx fun k _ => ⟨results[k]?,
    if k + 1 = es.length then (results.drop es.length).flatMap Element.literal ++ overflow else []⟩

/-- What the elements of a group are replaced by: the group's own result is that of the first. -/
def within (m : Option Emission) (body : List Element) : List Emission :=
  match m with
  | none => []
  | some m => shares m.result.toList m.overflow body

/-- What is written for a text that a unit has read: nothing, a literal text, or what the text
becomes by the pairs of a feature-set; and the overflow in any case. -/
inductive Writes (i : Inventory) : Emission → Text → Text → Prop where
  | nothing {overflow member : Text} : Writes i ⟨none, overflow⟩ member overflow
  | literal {text overflow member : Text} :
      Writes i ⟨some (.utterance text), overflow⟩ member (text ++ overflow)
  | feature {present : Bool} {name overflow member text : Text} {f : FeatureSet} :
      i.featureSet? name = some f → f.Turns present member text →
      Writes i ⟨some (.set (.feature present name)), overflow⟩ member (text ++ overflow)

/-- The result is plain, if there is one. -/
def Plain (m : Emission) : Prop := ∀ e, m.result = some e → e.Plain

theorem literal_eq_some : ∀ {es : List Element} {text : Text}, literal es = some text →
    es.flatMap Element.literal = text
  | [], text, h => Option.some.inj h
  | e :: es, text, h => by
    cases e with
    | utterance own =>
      rw [literal, Option.map_eq_some_iff] at h
      obtain ⟨rest, hrest, rfl⟩ := h
      rw [List.flatMap_cons, literal_eq_some hrest, Element.literal]
    | _ => cases h

theorem shares_cons {e f : Element} : shares results overflow (e :: f :: es) =
    ⟨results.head?, []⟩ :: shares results.tail overflow (f :: es) := by
  rw [shares, shares, List.mapIdx_cons, List.head?_eq_getElem?]
  simp [List.length_cons, List.getElem?_tail]

/-- Alignment gives each element its share. -/
theorem align_eq_some : ∀ {es results : List Element} {ms : List Emission},
    align overflow results es = some ms → ms = shares results overflow es
  | [], results, ms, h => by
    rw [align] at h
    exact (Option.some.inj h).symm
  | [e], results, ms, h => by
    rw [align, Option.map_eq_some_iff] at h
    obtain ⟨text, htext, rfl⟩ := h
    simp [shares, ← literal_eq_some htext, List.head?_eq_getElem?]
  | e :: f :: es, results, ms, h => by
    rw [align, Option.map_eq_some_iff] at h
    obtain ⟨rest, hrest, rfl⟩ := h
    rw [shares_cons, align_eq_some hrest]

theorem length_shares : (shares results overflow es).length = es.length := List.length_mapIdx

theorem plain_of_mem_shares (h : ∀ e ∈ results, e.Plain)
    (hm : m ∈ shares results overflow es) : m.Plain := by
  obtain ⟨k, -, rfl⟩ := List.mem_mapIdx.mp hm
  exact fun e he => h e (List.mem_of_getElem? he)

/-- What is written is what a unit writes for its text. -/
theorem writes_of_replacement (hm : m.Plain) (h : m.replacement i member = .ok text) :
    m.Writes i member text := by
  obtain ⟨result, overflow⟩ := m
  cases result with
  | none =>
    cases h
    exact .nothing
  | some e =>
    rcases hm e rfl with ⟨own, rfl⟩ | ⟨present, name, rfl⟩
    · cases h
      exact .literal
    · obtain ⟨f, hf, rfl⟩ := map_eq_ok.mp h
      rw [Inventory.featureSet] at hf
      split at hf
      · rename_i f' hf'
        cases hf
        exact .feature hf' (FeatureSet.turns_transform _ present member)
      · cases hf

end Emission

/-! ## Derivations -/

/-- The pieces of a text that an element has read: its symbols are kept outside the target, where
nothing replaces it, and in the target the text is changed as a whole. -/
inductive Rendered (i : Inventory) (e : Element) (text : Text) : Option Emission → List Piece → Prop
  where
  | kept : Rendered i e text none ((Symbol.ofText text).map .kept)
  | changed {m : Emission} {replacement : Text} : m.Writes i text replacement →
      Rendered i e text (some m) [.changed ⟨text, replacement, e.display, m.display⟩]

/-- The pieces of a text that an element has read, as the replacement is looked up. -/
def rendered (i : Inventory) (e : Element) (m : Option Emission) (text : Text) : List Piece :=
  match m with
  | none => (Symbol.ofText text).map .kept
  | some m =>
    match m.replacement i text with
    | .ok replacement => [.changed ⟨text, replacement, e.display, m.display⟩]
    | .error _ => []

theorem rendered_of_replacement {i : Inventory} {e : Element} {m : Emission}
    {text replacement : Text} (h : m.replacement i text = .ok replacement) :
    rendered i e (some m) text = [.changed ⟨text, replacement, e.display, m.display⟩] := by
  rw [rendered, h]

theorem Rendered.symbols_eq {i : Inventory} {e : Element} {text : Text} {m : Option Emission}
    {ps : List Piece} (h : Rendered i e text m ps) :
    ps.flatMap Piece.symbols = Symbol.ofText text := by
  cases h with
  | kept =>
    rw [List.flatMap_map]
    exact List.flatMap_singleton' _
  | changed => exact List.append_nil _

mutual

/-- The pieces into which an element takes what it reads; `m` is what replaces it in the target, and
nothing outside. -/
inductive Derives (i : Inventory) (rule : Rule) : Option Emission → Element → List Piece → Prop
  where
  | text {m : Option Emission} {text : Text} {ps : List Piece} :
      Rendered i (.utterance text) text m ps → Derives i rule m (.utterance text) ps
  | segment {m : Option Emission} {e : Element} {members : SortedSet Text} {member : Text}
      {ps : List Piece} : e.isSet = true → i.membersOf e = .ok members → member ∈ members →
      member ≠ [] → Rendered i e member m ps → Derives i rule m e ps
  | leftOut {m : Option Emission} {body : List Element} : Derives i rule m (.optional body) []
  | taken {m : Option Emission} {body : List Element} {ps : List Piece} :
      DerivesAll i rule (Emission.within m body) body ps → Derives i rule m (.optional body) ps
  | branch {m : Option Emission} {branches : List (List Element)} {branch : List Element}
      {ps : List Piece} : branch ∈ branches →
      DerivesAll i rule (Emission.within m branch) branch ps →
      Derives i rule m (.disjunction branches) ps
  | boundary {edge : WordEdge} : Derives i rule none (.boundary edge) [.kept edge.symbol]
  | target {ps : List Piece} :
      DerivesAll i rule (Emission.shares rule.result [] rule.target) rule.target ps →
      Derives i rule none .placeholder ps

/-- The pieces into which a sequence takes what it reads. -/
inductive DerivesAll (i : Inventory) (rule : Rule) :
    List Emission → List Element → List Piece → Prop where
  | nil {ms : List Emission} : DerivesAll i rule ms [] []
  | cons {ms : List Emission} {e : Element} {es : List Element} {ps qs : List Piece} :
      Derives i rule ms.head? e ps → DerivesAll i rule ms.tail es qs →
      DerivesAll i rule ms (e :: es) (ps ++ qs)

end

/-- The pieces into which a rule takes a span that it matches. -/
def Rule.Derivation (i : Inventory) (rule : Rule) (strip : Bool) (ps : List Piece) : Prop :=
  DerivesAll i rule [] (rule.environmentFor strip) ps

/-! ## Derivations and what is matched -/

section Derivations

variable {i : Inventory} {rule : Rule} {P : Language Symbol}

theorem mem_languageAny {branches : List (List Element)} {w : List Symbol} :
    w ∈ Element.languageAny i P branches ↔
      ∃ branch ∈ branches, w ∈ Element.languageAll i P branch := by
  induction branches with
  | nil => simp [Element.languageAny]
  | cons branch branches ih =>
    rw [Element.languageAny, Language.mem_add, ih, List.exists_mem_cons_iff]

/-- What the target of the rule reads is matched by the placeholder. -/
def ReadsTarget (i : Inventory) (rule : Rule) (P : Language Symbol) : Prop :=
  ∀ ps, DerivesAll i rule (Emission.shares rule.result [] rule.target) rule.target ps →
    ps.flatMap Piece.symbols ∈ P

theorem within_reads {T : Prop} {m : Option Emission} {body : List Element} (h : m = none → T) :
    Emission.within m body = [] ∧ T ∨ (Emission.within m body).length = body.length := by
  cases m with
  | none => exact .inl ⟨rfl, h rfl⟩
  | some m => exact .inr Emission.length_shares

mutual

theorem mem_language_of_derives : ∀ {m : Option Emission} {e : Element} {ps : List Piece},
    (m = none → ReadsTarget i rule P) → Derives i rule m e ps →
    ps.flatMap Piece.symbols ∈ e.language i P
  | _, _, _, _, .text h => h.symbols_eq
  | _, e, _, _, .segment hset hmembers hmember hne h => by
    rw [h.symbols_eq]
    cases e with
    | set => exact ⟨_, hmembers, _, hmember, hne, rfl⟩
    | compound => exact ⟨_, hmembers, _, hmember, hne, rfl⟩
    | _ => cases hset
  | _, _, _, _, .leftOut => .inr rfl
  | _, _, _, hT, .taken h => .inl (mem_language_of_derivesAll (within_reads hT) h)
  | _, _, _, hT, .branch hbranch h =>
    mem_languageAny.mpr ⟨_, hbranch, mem_language_of_derivesAll (within_reads hT) h⟩
  | _, _, _, _, .boundary => rfl
  | _, _, _, hT, .target h => hT rfl _ h

theorem mem_language_of_derivesAll : ∀ {ms : List Emission} {es : List Element} {ps : List Piece},
    ms = [] ∧ ReadsTarget i rule P ∨ ms.length = es.length → DerivesAll i rule ms es ps →
    ps.flatMap Piece.symbols ∈ Element.languageAll i P es
  | _, _, _, _, .nil => rfl
  | ms, e :: es, _, hms, .cons h hs => by
    rw [List.flatMap_append]
    refine Language.append_mem_mul (mem_language_of_derives (fun hhead => ?_) h)
      (mem_language_of_derivesAll ?_ hs)
    · rcases hms with ⟨-, hT⟩ | hlength
      · exact hT
      · rw [List.head?_eq_none_iff.mp hhead] at hlength
        cases hlength
    · rcases hms with ⟨rfl, hT⟩ | hlength
      · exact .inl ⟨rfl, hT⟩
      · refine .inr ?_
        rw [List.length_tail, hlength, List.length_cons, Nat.add_sub_cancel]

end

/-- What a derivation reads is matched by the rule. -/
theorem Rule.mem_language_of_derivation {strip : Bool} {ps : List Piece}
    (h : rule.Derivation i strip ps) : ps.flatMap Piece.symbols ∈ rule.language i strip :=
  mem_language_of_derivesAll (.inl ⟨rfl, fun _ hps =>
    mem_language_of_derivesAll (.inr Emission.length_shares) hps⟩) h

end Derivations

end SoundChange
