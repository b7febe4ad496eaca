import SoundChange.Proofs.Error
import SoundChange.Proofs.Statement.Turn

/-!
# Where errors are placed

An error that is found while a statement is read is placed at a token of its line
(`Statement.placed_read`): at the token that is out of place, or at one read before where something
begins that turns out to be defective. A draft keeps the places of the latter
(`Draft.Placed`).

A statement does not end before its line, so the line must have an end for this
(`Draft.placed_read`).
-/

namespace SoundChange

variable {α : Type} {P : Position → Prop} {known : List Text} {ts : List Token} {t : Token}
  {p : Position} {error : RuleError}

open RuleError (PlacedIn placedIn_ofToken placedIn_defective)

/-- There is nothing in `none`. -/
theorem forall_mem_none {Q : α → Prop} : ∀ v ∈ (none : Option α), Q v :=
  fun v h => absurd h (Option.not_mem_none v)

/-! ## Declarations -/

theorem Bracket.placed_of_step {b : Bracket} (ht : P t.position) (h : b.step t = .failed error) :
    error.PlacedIn P := by
  unfold step at h
  split at h
  · split at h <;> cases h
    exact placedIn_ofToken ht
  split at h <;> try cases h
  · split at h
    · cases h
    · rename_i herror
      cases h
      unfold element at herror
      split at herror <;> cases herror
      exact placedIn_defective ht
  · exact placedIn_ofToken ht

theorem Bracket.position_of_step {b b' : Bracket} (h : b.step t = .more b') :
    b'.position = b.position := by
  unfold step at h
  split at h
  · split at h <;> cases h
    rfl
  split at h <;> try cases h
  all_goals first
    | rfl
    | split at h <;> cases h

theorem Reading.placed_declared {production : Production} {a : α} (hts : ∀ t ∈ ts, P t.position) :
    Raises (PlacedIn P) (declared production a ts).result := by
  cases ts with
  | nil => exact raises_ok
  | cons t ts =>
    rw [declared]
    split
    · exact raises_ok
    · exact raises_error (placedIn_ofToken (hts t (List.mem_cons_self ..)))

theorem Category.placed_readMembers (hts : ∀ t ∈ ts, P t.position)
    (hends : ∃ e ∈ ts, e.EndsLine) {c : Category} {b : Option Bracket}
    (hb : ∀ b' ∈ b, P b'.position) : Raises (PlacedIn P) (c.readMembers known b ts).result := by
  induction ts generalizing c b with
  | nil =>
    obtain ⟨_, he, -⟩ := hends
    cases he
  | cons t ts ih =>
    obtain ⟨ht, hts⟩ := List.forall_mem_cons.mp hts
    have ih := @ih hts
    cases b with
    | some b =>
      have hb := hb b rfl
      have hnext (h : ∀ e, b.step t ≠ .failed e) : ∃ e ∈ ts, e.EndsLine :=
        exists_endsLine_of_cons hends fun he => (b.step_of_endsLine he).elim h
      rw [readMembers]
      split
      · rename_i b' hstep
        refine ih (hnext (by simp [hstep])) ?_
        rintro _ ⟨⟩
        rwa [Bracket.position_of_step hstep]
      · rename_i hstep
        exact ih (hnext (by simp [hstep])) forall_mem_none
      · exact raises_error (placedIn_defective hb)
      · rename_i hstep
        exact raises_error (Bracket.placed_of_step ht hstep)
    | none =>
      have hnext {kind : TokenKind} (hk : t.kind = kind)
          (h : kind ≠ .newline ∧ kind ≠ .endOfFile) := exists_endsLine_of_kind hends hk h
      rw [readMembers]
      split
      · rename_i hk
        split
        · exact ih (hnext hk (by decide)) forall_mem_none
        · exact ih (hnext hk (by decide)) forall_mem_none
      · rename_i hk
        exact ih (hnext hk (by decide)) forall_mem_none
      · rename_i hk
        refine ih (hnext hk (by decide)) ?_
        rintro _ ⟨⟩
        exact ht
      · rename_i hk
        exact ih (hnext hk (by decide)) forall_mem_none
      · exact Reading.placed_declared hts
      · exact raises_error (placedIn_ofToken ht)

/-- The base form of a pair being read. -/
def FeatureSet.Slot.base? : Slot → Option Token
  | between => none
  | base b | arrow b => some b

/-- Behind a base form the reader passes the arrow that it has seen there. -/
theorem FeatureSet.placed_readMembers (hts : ∀ t ∈ ts, P t.position)
    (hends : ∃ e ∈ ts, e.EndsLine) {f : FeatureSet} {slot : Slot}
    (hslot : ∀ b, slot = .base b → ts.head?.any (·.kind = .arrow) = true)
    (hb : ∀ b ∈ slot.base?, P b.position) : Raises (PlacedIn P) (f.readMembers slot ts).result := by
  induction ts generalizing f slot with
  | nil =>
    obtain ⟨_, he, -⟩ := hends
    cases he
  | cons t ts ih =>
    obtain ⟨ht, hts⟩ := List.forall_mem_cons.mp hts
    have ih := @ih hts
    have hnext {kind : TokenKind} (hk : t.kind = kind)
        (h : kind ≠ .newline ∧ kind ≠ .endOfFile) := exists_endsLine_of_kind hends hk h
    cases slot with
    | base b =>
      have harrow : t.kind = .arrow := of_decide_eq_true (hslot b rfl)
      rw [readMembers]
      exact ih (hnext harrow (by decide)) (by simp) hb
    | arrow b =>
      rw [readMembers]
      split
      · rename_i hk
        split
        · exact ih (hnext hk (by decide)) (by simp) forall_mem_none
        · exact raises_error (placedIn_defective (hb b rfl))
      · exact raises_error (placedIn_ofToken ht)
    | between =>
      rw [readMembers]
      split
      · rename_i hk
        split
        · rename_i harrow
          refine ih (hnext hk (by decide)) (fun _ _ => harrow) ?_
          rintro _ ⟨⟩
          exact ht
        · exact ih (hnext hk (by decide)) (by simp) forall_mem_none
      · rename_i hk
        exact ih (hnext hk (by decide)) (by simp) forall_mem_none
      · exact Reading.placed_declared hts
      · exact raises_error (placedIn_ofToken ht)

/-! ## Rules -/

/-- `P` holds of all places that a group keeps. -/
structure Group.Placed (P : Position → Prop) (g : Group) : Prop where
  position : P g.position
  boundary : ∀ p ∈ g.boundary, P p

theorem Group.Placed.close {g : Group} (h : g.Placed P) : Raises (PlacedIn P) g.close := by
  unfold Group.close
  split
  · split
    · rename_i hp
      exact raises_error (placedIn_defective (h.boundary _ hp))
    · exact raises_ok
  · dsimp only
    split
    · exact raises_error (placedIn_defective h.position)
    · exact raises_ok

namespace Draft

variable {d d' : Draft} {e : Element}

/-- `P` holds of all places that a draft keeps. -/
structure Placed (P : Position → Prop) (d : Draft) : Prop where
  start : ∀ p ∈ d.start, P p
  elements : ∀ x ∈ d.elements, P x.2
  groups : ∀ g ∈ d.groups, g.Placed P
  bracket : ∀ b ∈ d.bracket, P b.position
  targetStart : d.part ≠ .target → P d.targetStart
  resultStart : d.part = .environment → P d.resultStart

theorem placed_empty : Placed P {} :=
  ⟨forall_mem_none, List.forall_mem_nil _, List.forall_mem_nil _, forall_mem_none,
    fun h => absurd rfl h, nofun⟩

namespace Placed

theorem startAt (h : d.Placed P) (hp : P p) : P (d.startAt p) := by
  unfold Draft.startAt
  cases hstart : d.start with
  | none => exact hp
  | some q => exact h.start q hstart

theorem begun (h : d.Placed P) (hp : P p) : (d.begun p).Placed P where
  start := by
    rintro _ ⟨⟩
    exact h.startAt hp
  elements := h.elements
  groups := h.groups
  bracket := h.bracket
  targetStart := h.targetStart
  resultStart := h.resultStart

theorem push_error (h : d.push e p = .error error) (hp : P p) : error.PlacedIn P := by
  unfold push at h
  split at h
  · cases h
  · split at h <;> cases h
    exact placedIn_defective hp

theorem push (hd : d.Placed P) (hp : P p) (h : d.push e p = .ok d') : d'.Placed P := by
  unfold Draft.push at h
  split at h
  · cases h
    refine ⟨hd.start, ?_, hd.groups, hd.bracket, hd.targetStart, hd.resultStart⟩
    rw [List.forall_mem_append, List.forall_mem_singleton]
    exact ⟨hd.elements, hp⟩
  · rename_i g outer hgroups
    split at h <;> cases h
    obtain ⟨hg, houter⟩ := List.forall_mem_cons.mp (hgroups ▸ hd.groups)
    refine ⟨hd.start, hd.elements, List.forall_mem_cons.mpr ⟨⟨hg.position, ?_⟩, houter⟩,
      hd.bracket, hd.targetStart, hd.resultStart⟩
    intro q hq
    split at hq
    · rcases Option.or_eq_some_iff.mp hq with hq | ⟨-, hq⟩
      · exact hg.boundary q hq
      · cases hq
        exact hp
    · exact hg.boundary q hq

theorem separate (h : d.Placed P) (hp : P p) : (d.separate p).Placed P := by
  unfold Draft.separate
  split
  · exact ⟨forall_mem_none, List.forall_mem_nil _, List.forall_mem_nil _, forall_mem_none,
      fun _ => hp, nofun⟩
  · rename_i htarget
    exact ⟨forall_mem_none, List.forall_mem_nil _, h.groups, h.bracket,
      fun _ => h.targetStart htarget, fun _ => hp⟩

theorem complete (h : d.Placed P) (hpart : d.part = .environment) (hp : P p) :
    Raises (PlacedIn P) (d.complete p) := by
  have htarget : P d.targetStart := h.targetStart (by rw [hpart]; nofun)
  have hresult : P d.resultStart := h.resultStart hpart
  unfold Draft.complete
  dsimp only
  split
  · exact raises_error (placedIn_defective hresult)
  split
  · exact raises_error (placedIn_defective hresult)
  split
  · exact raises_error (placedIn_defective htarget)
  split
  · exact raises_error (placedIn_defective hp)
  split
  · rename_i hfind
    have hmem := List.mem_of_mem_tail (List.dropLast_subset _ (List.mem_of_find?_eq_some hfind))
    exact raises_error (placedIn_defective (h.elements _ hmem))
  · exact raises_ok

end Placed

/-- `P` holds of the places of what a token makes of a draft. -/
def PlacedProgress (P : Position → Prop) :
    Progress Draft (Except RuleError (Rule × Position)) → Prop
  | .more d => d.Placed P
  | .done r => Raises (PlacedIn P) r
  | .failed e => e.PlacedIn P

theorem placed_proceed (hd : d.Placed P) (hp : P p) : PlacedProgress P (proceed (d.push e p)) := by
  cases h : d.push e p with
  | ok d' => exact hd.push hp h
  | error error => exact Placed.push_error h hp

theorem placed_step (hd : d.Placed P) (ht : P t.position) :
    PlacedProgress P (d.step known t) := by
  have hbegun := hd.begun ht
  have hturn := turn known d t
  generalize d.step known t = r at hturn
  cases hturn with
  | @refMore b b' hb h =>
    refine ⟨hbegun.start, hbegun.elements, hbegun.groups, ?_, hd.targetStart, hd.resultStart⟩
    rintro _ ⟨⟩
    rw [Bracket.position_of_step h]
    exact hd.bracket b hb
  | @refDone b e hb h =>
    refine placed_proceed ?_ (hd.bracket b hb)
    exact ⟨hbegun.start, hbegun.elements, hbegun.groups, forall_mem_none, hd.targetStart,
      hd.resultStart⟩
  | refFailed hb h => exact Bracket.placed_of_step ht h
  | @branch g outer hb hg hk =>
    obtain ⟨hgroup, houter⟩ := List.forall_mem_cons.mp (hg ▸ hd.groups)
    exact ⟨hbegun.start, hbegun.elements,
      List.forall_mem_cons.mpr ⟨⟨hgroup.position, hgroup.boundary⟩, houter⟩, hbegun.bracket,
      hd.targetStart, hd.resultStart⟩
  | @close g outer e hb hg hk h =>
    obtain ⟨hgroup, houter⟩ := List.forall_mem_cons.mp (hg ▸ hd.groups)
    refine placed_proceed ?_ hgroup.position
    exact ⟨hbegun.start, hbegun.elements, houter, hbegun.bracket, hd.targetStart, hd.resultStart⟩
  | @closeFailed g outer e hb hg hk h =>
    obtain ⟨hgroup, -⟩ := List.forall_mem_cons.mp (hg ▸ hd.groups)
    exact hgroup.close e h
  | separate hb hg hpart hk => exact hbegun.separate (hd.startAt ht)
  | finish hb hg hpart hk => exact hbegun.complete hpart (hd.startAt ht)
  | single hb h => exact placed_proceed hbegun ht
  | openBracket hb hk =>
    refine ⟨hbegun.start, hbegun.elements, hbegun.groups, ?_, hd.targetStart, hd.resultStart⟩
    rintro _ ⟨⟩
    exact ht
  | openGroup hb hk hpart =>
    exact ⟨hbegun.start, hbegun.elements,
      List.forall_mem_cons.mpr ⟨⟨ht, forall_mem_none⟩, hd.groups⟩, hbegun.bracket,
      hd.targetStart, hd.resultStart⟩
  | unexpected => exact placedIn_ofToken ht

theorem placed_read (hts : ∀ t ∈ ts, P t.position) (hends : ∃ e ∈ ts, e.EndsLine)
    (hd : d.Placed P) : Raises (PlacedIn P) (d.read known ts).result := by
  induction ts generalizing d with
  | nil =>
    obtain ⟨_, he, -⟩ := hends
    cases he
  | cons t ts ih =>
    obtain ⟨ht, hts⟩ := List.forall_mem_cons.mp hts
    have hstep : PlacedProgress P (d.step known t) := placed_step hd ht
    rw [read]
    split
    · rename_i d' hmore
      rw [hmore] at hstep
      exact ih hts (exists_endsLine_of_cons hends fun he => step_of_endsLine he hmore) hstep
    · rename_i r hdone
      rw [hdone] at hstep
      exact hstep
    · rename_i error hfailed
      rw [hfailed] at hstep
      exact raises_error hstep

end Draft

/-! ## Statements -/

/-- An error in a statement is placed at one of its tokens, if a line ends among them. -/
theorem Statement.placed_read (hts : ∀ t ∈ ts, P t.position) (hends : ∃ e ∈ ts, e.EndsLine) :
    Raises (PlacedIn P) (read known ts).result := by
  rw [read]
  split
  · rename_i name hform
    obtain ⟨a, b, rest, rfl, ha, hb⟩ := form_eq_category hform
    rw [List.forall_mem_cons, List.forall_mem_cons] at hts
    have hbrace := exists_endsLine_of_cons hends (Token.not_endsLine_of_isName ha)
    have hrest := exists_endsLine_of_kind hbrace hb (by decide)
    have hmembers : Raises (PlacedIn P) ((Category.new name).readMembers known none rest).result :=
      Category.placed_readMembers hts.2.2 hrest forall_mem_none
    exact hmembers.map _
  · rename_i name hform
    obtain ⟨a, b, c, d, rest, rfl, ha, hb, hc, hd⟩ := form_eq_featureSet hform
    simp only [List.forall_mem_cons] at hts
    have hname := exists_endsLine_of_kind hends ha (by decide)
    have hclose := exists_endsLine_of_cons hname (Token.not_endsLine_of_isName hb)
    have hbrace := exists_endsLine_of_kind hclose hc (by decide)
    have hrest := exists_endsLine_of_kind hbrace hd (by decide)
    have hmembers : Raises (PlacedIn P) ((FeatureSet.new name).readMembers .between rest).result :=
      FeatureSet.placed_readMembers hts.2.2.2.2 hrest (by simp) forall_mem_none
    exact hmembers.map _
  · exact (Draft.placed_read hts hends Draft.placed_empty).map _

end SoundChange
