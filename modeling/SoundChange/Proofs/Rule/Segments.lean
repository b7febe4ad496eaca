import SoundChange.Proofs.Rule.Reading
import SoundChange.Proofs.Trie.Forest

/-!
# Laying out texts and sets

What reads the segments of a rule: a text character by character (`lays_readText`), and a set along
its trie (`lays_readSet`). In the target both begin a unit, and end it where a segment ends.

The arcs of a forest are added to a state that can have arcs already: `Opens` says what becomes of
that state, and `Branched` what the new arcs lead to.
-/

namespace SoundChange.Assembly

open Layout

variable {a : Automaton} {i : Inventory} {σ σ₁ σ₂ σ₃ : Assembly} {s t exit : StateId}
  {n : TransformId} {e : Element} {m : Option Emission} {u : Option TargetUnit}

/-! ## Texts -/

theorem lays_spell {inTarget : Bool} {tr : Option (TransformId × TransformId)} :
    ∀ {text : Text} {s : StateId} {σ : Assembly}, Blank σ s →
      Yields (spell inTarget tr text s) σ t σ₁ →
      Lays σ s σ₁ t (fun a => Spelled a tr text s t) ∧ σ₁.units = σ.units
  | [], s, σ, hs, h => by
    obtain ⟨rfl, rfl⟩ := yields_pure.mp h
    exact ⟨.refl hs fun _ => rfl, rfl⟩
  | c :: cs, s, σ, hs, h => by
    obtain ⟨next, σ₂, hstate, h⟩ := yields_bind.mp h
    obtain ⟨_, σ₃, harc, h⟩ := yields_bind.mp h
    obtain ⟨hfirst, hunits⟩ := lays_arc hs hstate harc
    obtain ⟨hrest, hunits'⟩ := lays_spell hfirst.blank h
    exact ⟨(hfirst.trans hrest).mono fun a ha => ⟨next, ha⟩, hunits'.trans hunits⟩

/-! ## Units -/

variable {owned : StateId → Prop} {member : Text} {v : TargetUnit} {k : Nat}

/-- A later assembly keeps the transforms of an earlier one. -/
theorem Rewrites.keeps {v : View} (h : Rewrites σ s v σ₁) :
    Keeps σ₁.automaton σ fun _ => False :=
  ⟨h.toRetains, nofun⟩

theorem Keeps.ends (h : Keeps a σ owned) (hn : Ends σ.automaton i v member n) :
    Ends a i v member n := by
  obtain ⟨text, htext, hn⟩ := hn
  refine ⟨text, htext, ?_⟩
  split
  · rwa [if_pos ‹_›] at hn
  · rw [if_neg ‹_›] at hn
    exact h.transform_eq hn

theorem Keeps.closes {tr : Option TransformId} (h : Keeps a σ owned)
    (htr : Closes σ.automaton i u member tr) : Closes a i u member tr := by
  cases u with
  | none => exact htr
  | some u =>
    obtain ⟨n, hn, hends⟩ := htr
    exact ⟨n, hn, h.ends hends⟩

theorem Keeps.isUnit {m : Emission} (h : Keeps a σ owned) (hv : IsUnit σ.automaton e m k v) :
    IsUnit a e m k v :=
  ⟨hv.emission_eq, hv.number_eq, hv.source_eq, hv.target_eq, h.transform_eq hv.null_eq⟩

theorem quiet_beginUnit {m : Emission} (hσ : σ.automaton.Tidy)
    (h : Yields (beginUnit e m) σ v σ₁) :
    Quiet σ σ₁ ∧ IsUnit σ₁.automaton e m σ.units v ∧ σ₁.units = σ.units + 1 := by
  obtain ⟨number, σ₂, hunit, h⟩ := yields_bind.mp h
  obtain ⟨null, σ₃, hnull, h⟩ := yields_bind.mp h
  obtain ⟨rfl, rfl⟩ := yields_pure.mp h
  obtain ⟨hquiet, rfl, hunits⟩ := quiet_addUnit hσ hunit
  obtain ⟨hquiet', htransform, hunits'⟩ := quiet_addTransform hquiet.tidy hnull
  exact ⟨hquiet.trans hquiet', ⟨rfl, rfl, rfl, rfl, htransform⟩, hunits'.trans hunits⟩

/-- The transform that writes the replacement of a text ends the unit with it. -/
theorem quiet_last {text : Text} (hσ : σ.automaton.Tidy)
    (htext : v.emission.replacement i member = .ok text)
    (h : Yields (if text.isEmpty then pure v.null
      else addTransform (.ordinary text v.source v.target v.number)) σ n σ₁) :
    Quiet σ σ₁ ∧ Ends σ₁.automaton i v member n ∧ σ₁.units = σ.units := by
  split at h
  · rename_i hempty
    obtain ⟨rfl, rfl⟩ := yields_pure.mp h
    exact ⟨.refl hσ, ⟨text, htext, by rw [if_pos (List.isEmpty_iff.mp hempty)]⟩, rfl⟩
  · rename_i hempty
    obtain ⟨hquiet, htransform, hunits⟩ := quiet_addTransform hσ h
    rw [List.isEmpty_iff] at hempty
    exact ⟨hquiet, ⟨text, htext, by rwa [if_neg hempty]⟩, hunits⟩

theorem quiet_endUnit (hσ : σ.automaton.Tidy) (h : Yields (endUnit i v member) σ n σ₁) :
    Quiet σ σ₁ ∧ Ends σ₁.automaton i v member n ∧ σ₁.units = σ.units := by
  obtain ⟨text, σ₂, hlift, hlast⟩ := yields_bind.mp h
  obtain ⟨htext, rfl⟩ := yields_lift.mp hlift
  exact quiet_last hσ htext hlast

/-- Ends the unit, if there is one, with a transform that is put in its place. -/
def closeUnit (i : Inventory) (u : Option TargetUnit) (member : Text)
    (place : TransformId → Automaton → Automaton) : Assemble Unit :=
  match u with
  | some u => do
    let t ← endUnit i u member
    change (place t)
  | none => return

theorem rewrites_close_last {c : Symbol} {arcs : List Arc} {r : Unit} (hσ : σ.automaton.Tidy)
    (hs : (σ.view s).arcs = arcs ++ [⟨c, t, none⟩]) (hc : ∀ b ∈ arcs, b.symbol ≠ c)
    (h : Yields (closeUnit i u member fun n a => a.attach s c n) σ r σ₁) :
    ∃ tr, Rewrites σ s { σ.view s with arcs := arcs ++ [⟨c, t, tr⟩] } σ₁ ∧
      Closes σ₁.automaton i u member tr := by
  cases u with
  | none =>
    obtain ⟨-, rfl⟩ := yields_pure.mp h
    have hsame := (Quiet.refl hσ).rewrites rfl s
    exact ⟨none, by rwa [← hs], rfl⟩
  | some v =>
    obtain ⟨n, σ₂, hend, h⟩ := yields_bind.mp h
    obtain ⟨hquiet, hends, hunits⟩ := quiet_endUnit hσ hend
    have hattach := rewrites_attach_last hquiet.tidy (by rw [hquiet.view_eq, hs]) hc h
    rw [hquiet.view_eq] at hattach
    have hall := (hquiet.rewrites hunits s).trans hattach
    exact ⟨some n, hall, n, rfl, hattach.keeps.ends hends⟩

theorem rewrites_close_default {r : Unit} (hσ : σ.automaton.Tidy) (hs : s < σ.automaton.size)
    (hdefault : (σ.view s).default = none)
    (h : Yields (closeUnit i u member fun n a => a.attachDefault s n) σ r σ₁) :
    ∃ tr, Rewrites σ s { σ.view s with default := tr } σ₁ ∧ Closes σ₁.automaton i u member tr := by
  cases u with
  | none =>
    obtain ⟨-, rfl⟩ := yields_pure.mp h
    have hsame := (Quiet.refl hσ).rewrites rfl s
    exact ⟨none, by rwa [← hdefault], rfl⟩
  | some v =>
    obtain ⟨n, σ₂, hend, h⟩ := yields_bind.mp h
    obtain ⟨hquiet, hends, hunits⟩ := quiet_endUnit hσ hend
    have hattach := rewrites_attachDefault hquiet.tidy (hquiet.lt_size hs)
      (by rw [hquiet.view_eq, hdefault]) h
    rw [hquiet.view_eq] at hattach
    have hall := (hquiet.rewrites hunits s).trans hattach
    exact ⟨some n, hall, n, rfl, hattach.keeps.ends hends⟩

/-! ## Forests -/

/-- The states that are new between two assemblies. -/
def New (σ σ₁ : Assembly) (x : StateId) : Prop :=
  σ.automaton.size ≤ x ∧ x < σ₁.automaton.size

/-- The part of `readForest` that adds the arc of one branch. -/
def readArc (i : Inventory) (u : Option TargetUnit) (exit : StateId) (path : Text) (c : Char)
    (isMember : Bool) (below : Forest) (s : StateId) : Assemble Unit :=
  if below.isEmpty then do
    change (·.addEdge s (.char c) exit)
    if isMember then closeUnit i u (path ++ [c]) fun n a => a.attach s (.char c) n else pure ()
  else do
    let next ← addState u.isSome
    addEdge s (.char c) next (u.map TargetUnit.null)
    readForest i u exit (path ++ [c]) below next
    if isMember then do
      addSilent next exit
      closeUnit i u (path ++ [c]) fun n a => a.attachDefault next n
    else pure ()

theorem readForest_branch (path : Text) (c : Char) (isMember : Bool) (below beside : Forest) :
    readForest i u exit path (.branch c isMember below beside) s = (do
      readArc i u exit path c isMember below s
      readForest i u exit path beside s) := by
  cases u <;> cases isMember <;> cases below <;>
    simp [readForest, readArc, closeUnit, Forest.isEmpty]

/-- The state `s` has got more arcs, which lead to new states. Together they satisfy `P` in every
automaton that keeps the new states. -/
structure Opens (σ : Assembly) (s : StateId) (new : List Arc) (σ₁ : Assembly)
    (P : Automaton → Prop) : Prop where
  grows : Grows σ s σ₁
  units_eq : σ₁.units = σ.units
  view_self : σ₁.view s = { σ.view s with arcs := (σ.view s).arcs ++ new }
  laid {a : Automaton} : Keeps a σ₁ (New σ σ₁) → P a

/-- Once there is an arc for the first character of a forest, there is none yet for the others. -/
theorem Opens.fresh {b : Arc} {c : Char} {isMember : Bool} {below beside : Forest}
    {P : Automaton → Prop} (h : Opens σ s [b] σ₁ P) (hb : b.symbol = .char c)
    (hbefore : ∀ d ∈ beside.firstChars, Ranked.before c d = true)
    (hfresh : ∀ b ∈ (σ.view s).arcs, ∀ d ∈ (Forest.branch c isMember below beside).firstChars,
      b.symbol ≠ .char d) :
    ∀ b ∈ (σ₁.view s).arcs, ∀ d ∈ beside.firstChars, b.symbol ≠ .char d := by
  rw [h.view_self]
  refine List.forall_mem_append.mpr
    ⟨fun b hb d hd => hfresh b hb d (List.mem_cons_of_mem _ hd), ?_⟩
  refine List.forall_mem_singleton.mpr fun d hd heq => ?_
  exact Ranked.ne_of_before (hbefore d hd) (Symbol.char.inj (hb.symm.trans heq))

theorem Opens.trans {new new' : List Arc} {P Q : Automaton → Prop} (hs : s < σ.automaton.size)
    (h : Opens σ s new σ₁ P) (h' : Opens σ₁ s new' σ₂ Q) :
    Opens σ s (new ++ new') σ₂ fun a => P a ∧ Q a where
  grows := h.grows.trans h'.grows (.inl rfl)
  units_eq := h'.units_eq.trans h.units_eq
  view_self := by rw [h'.view_self, h.view_self, List.append_assoc]
  laid ha := by
    refine ⟨h.laid (ha.back h'.grows fun x hx => ?_), h'.laid (ha.mono fun x hx => ?_)⟩
    · exact ⟨⟨hx.1, h'.grows.lt_size hx.2⟩, hx.2,
        Nat.ne_of_gt (Nat.lt_of_lt_of_le hs hx.1)⟩
    · exact ⟨Nat.le_trans h.grows.size_le hx.1, hx.2⟩

theorem symbol_of_branched {path : Text} {b : Arc} :
    ∀ {t : Forest} {arcs : List Arc}, Branched a i u exit path t arcs → b ∈ arcs →
      ∃ c ∈ t.firstChars, b.symbol = .char c
  | .empty, arcs, h, hb => by
    rw [show arcs = [] from h] at hb
    cases hb
  | .branch c isMember below beside, arcs, h, hb => by
    obtain ⟨target, tr, rest, rfl, -, hrest⟩ := h
    rcases List.mem_cons.mp hb with rfl | hb
    · exact ⟨c, List.mem_cons_self .., rfl⟩
    · obtain ⟨d, hd, hbd⟩ := symbol_of_branched hrest hb
      exact ⟨d, List.mem_cons_of_mem _ hd, hbd⟩

theorem Keeps.refl (σ : Assembly) (owned : StateId → Prop) : Keeps σ.automaton σ owned :=
  ⟨.refl _, fun _ => rfl⟩

/-- The last arc of a segment, which leads to the state `exit`. -/
theorem rewrites_readArc {path : Text} {c : Char} {r : Unit} (hσ : σ.automaton.Tidy)
    (hs : s < σ.automaton.size) (hc : ∀ b ∈ (σ.view s).arcs, b.symbol ≠ .char c)
    (h : Yields (readArc i u exit path c true .empty s) σ r σ₁) :
    ∃ tr, Rewrites σ s { σ.view s with arcs := (σ.view s).arcs ++ [⟨.char c, exit, tr⟩] } σ₁ ∧
      Closes σ₁.automaton i u (path ++ [c]) tr := by
  obtain ⟨_, σ₂, hedge, hclose⟩ := yields_bind.mp h
  have hedge := rewrites_addEdge hσ hs (fun b hb heq => absurd heq (hc b hb)) hedge
  rw [addTo_of_fresh hc] at hedge
  obtain ⟨tr, hclose, hcloses⟩ := rewrites_close_last hedge.tidy (by rw [hedge.view_self]) hc hclose
  rw [hedge.view_self] at hclose
  exact ⟨tr, hedge.trans hclose, hcloses⟩

theorem opens_readArc_leaf {path : Text} {c : Char} {r : Unit} (hσ : σ.automaton.Tidy)
    (hs : s < σ.automaton.size) (hc : ∀ b ∈ (σ.view s).arcs, b.symbol ≠ .char c)
    (h : Yields (readArc i u exit path c true .empty s) σ r σ₁) :
    ∃ tr, Opens σ s [⟨.char c, exit, tr⟩] σ₁ fun a =>
      Reaches a i u exit (path ++ [c]) true true (Branched a i u exit (path ++ [c]) .empty) exit
        tr := by
  obtain ⟨tr, harc, hcloses⟩ := rewrites_readArc hσ hs hc h
  exact ⟨tr, harc.grows, harc.units_eq, harc.view_self, fun ha => ⟨rfl, ha.closes hcloses⟩⟩

/-- A state in the middle of segments, once the arcs that go on are there: it passes to `exit` if a
segment ends there. -/
theorem rewrites_leave {inner : List Arc} {isMember : Bool} {r : Unit} (hσ : σ.automaton.Tidy)
    (hs : s < σ.automaton.size) (hview : σ.view s = { arcs := inner })
    (hinner : ∀ b ∈ inner, b.symbol ≠ .lambda)
    (h : Yields (if isMember then do
        addSilent s exit
        closeUnit i u member fun n a => a.attachDefault s n
      else pure ()) σ r σ₁) :
    ∃ default, Rewrites σ s
      (if isMember then { arcs := inner ++ [silent exit], default } else { arcs := inner }) σ₁ ∧
        (isMember = true → Closes σ₁.automaton i u member default) := by
  cases isMember with
  | false =>
    obtain ⟨-, rfl⟩ := yields_pure.mp h
    have hsame := (Quiet.refl hσ).rewrites rfl s
    exact ⟨none, by rwa [← hview], nofun⟩
  | true =>
    obtain ⟨_, σ₂, hsilent, hclose⟩ := yields_bind.mp h
    have hbare : ∀ b ∈ (σ.view s).arcs, b.symbol = .lambda → b.transform = none := by
      rw [hview]
      exact fun b hb heq => absurd heq (hinner b hb)
    have hsilent := rewrites_addEdge hσ hs hbare hsilent
    rw [hview, addTo_of_fresh hinner] at hsilent
    obtain ⟨default, hclose, hcloses⟩ := rewrites_close_default hsilent.tidy
      (hsilent.lt_size hs) (by rw [hsilent.view_self]) hclose
    rw [hsilent.view_self] at hclose
    exact ⟨default, hsilent.trans hclose, fun _ => hcloses⟩

/-- The state `s` goes on to a new one along an arc of a forest. -/
structure Enters (σ : Assembly) (s : StateId) (c : Char) (u : Option TargetUnit) (next : StateId)
    (σ₁ : Assembly) : Prop where
  rewrites : Rewrites σ s { σ.view s with
    arcs := (σ.view s).arcs ++ [⟨.char c, next, u.map TargetUnit.null⟩] } σ₁
  blank_next : Blank σ₁ next
  next_eq : next = σ.automaton.size
  origin : σ₁.automaton.origin? next = some u.isSome

theorem enters {c : Char} {next : StateId} {r : Unit} (hσ : σ.automaton.Tidy)
    (hs : s < σ.automaton.size) (hc : ∀ b ∈ (σ.view s).arcs, b.symbol ≠ .char c)
    (hstate : Yields (addState u.isSome) σ next σ₁)
    (harc : Yields (addEdge s (.char c) next (u.map TargetUnit.null)) σ₁ r σ₂) :
    Enters σ s c u next σ₂ := by
  have horigin := origin_addState hstate
  obtain ⟨hquiet, hid, hnext, hunits⟩ := quiet_addState hσ hstate
  have harc := rewrites_addArc hquiet.tidy (hquiet.lt_size hs) (by rwa [hquiet.view_eq]) harc
  rw [hquiet.view_eq] at harc
  have hne : next ≠ s := hid ▸ Nat.ne_of_gt hs
  exact ⟨(hquiet.rewrites hunits s).trans harc, ⟨harc.tidy, harc.lt_size hnext.lt_size,
    (harc.view_of_ne hne).trans hnext.view_eq⟩, hid, harc.origin_eq horigin⟩

/-- Behind an arc of a forest the arcs that go on are added to the state that it leads to, and then
this state gets the view `v`. -/
theorem Enters.opens {c : Char} {next : StateId} {inner : List Arc} {v : View}
    {P : Automaton → Prop} (h : Enters σ s c u next σ₁) (hs : s < σ.automaton.size)
    (hinner : Opens σ₁ next inner σ₂ P) (hleave : Rewrites σ₂ next v σ₃) :
    Opens σ s [⟨.char c, next, u.map TargetUnit.null⟩] σ₃ fun a =>
      P a ∧ a.view next = v ∧ Keeps a σ₃ fun _ => False := by
  have hnew : σ.automaton.size ≤ next := Nat.le_of_eq h.next_eq.symm
  have hne : next ≠ s := Nat.ne_of_gt (Nat.lt_of_lt_of_le hs hnew)
  have hgrows : Grows σ₁ next σ₃ := hinner.grows.trans hleave.grows (.inl rfl)
  have hlt : next < σ₃.automaton.size := hgrows.lt_size h.blank_next.lt_size
  refine ⟨h.rewrites.grows.trans hgrows (.inr hnew), ?_, ?_, fun {a} ha =>
    ⟨hinner.laid (ha.back hleave.grows fun x hx => ?_), ?_, ha.mono nofun⟩⟩
  · rw [hleave.units_eq, hinner.units_eq, h.rewrites.units_eq]
  · rw [hgrows.view_eq (h.rewrites.lt_size hs) hne.symm, h.rewrites.view_self]
  · have hx' : next < x := Nat.lt_of_lt_of_le h.blank_next.lt_size hx.1
    exact ⟨⟨Nat.le_trans hnew (Nat.le_of_lt hx'), hleave.lt_size hx.2⟩, hx.2, Nat.ne_of_gt hx'⟩
  · exact (ha.view_eq ⟨hnew, hlt⟩).trans hleave.view_self

/-- How an arc with longer segments behind it is read: the state that it leads to gets the arcs that
go on, and passes to `exit` if a segment ends there. -/
theorem enters_readArc {path : Text} {c : Char} {isMember : Bool} {below : Forest} {r : Unit}
    (hσ : σ.automaton.Tidy) (hs : s < σ.automaton.size)
    (hc : ∀ b ∈ (σ.view s).arcs, b.symbol ≠ .char c) (hbelow : below.isEmpty = false)
    (ih : ∀ {σ σ₁ : Assembly} {s : StateId} {r : Unit}, Blank σ s →
      Yields (readForest i u exit (path ++ [c]) below s) σ r σ₁ → ∃ new, Opens σ s new σ₁ fun a =>
        Branched a i u exit (path ++ [c]) below new)
    (h : Yields (readArc i u exit path c isMember below s) σ r σ₁) :
    ∃ next σ₂ σ₃ inner default, Enters σ s c u next σ₂ ∧
      Yields (readForest i u exit (path ++ [c]) below next) σ₂ () σ₃ ∧
      (Opens σ₂ next inner σ₃ fun a => Branched a i u exit (path ++ [c]) below inner) ∧
      Rewrites σ₃ next
        (if isMember then { arcs := inner ++ [silent exit], default } else { arcs := inner }) σ₁ ∧
      (isMember = true → Closes σ₁.automaton i u (path ++ [c]) default) := by
  rw [readArc, hbelow, if_neg Bool.false_ne_true] at h
  obtain ⟨next, σ₂, hstate, h₂⟩ := yields_bind.mp h
  obtain ⟨_, σ₃, harc, h₃⟩ := yields_bind.mp h₂
  obtain ⟨_, σ₄, hread, hleave⟩ := yields_bind.mp h₃
  have henters := enters hσ hs hc hstate harc
  obtain ⟨inner, hinner⟩ := ih henters.blank_next hread
  have hview : σ₄.view next = { arcs := inner } := by
    rw [hinner.view_self, henters.blank_next.view_eq, List.nil_append]
  have hsymbols : ∀ b ∈ inner, b.symbol ≠ .lambda := by
    intro b hb heq
    obtain ⟨d, -, hd⟩ := symbol_of_branched (hinner.laid (.refl ..)) hb
    cases hd.symm.trans heq
  obtain ⟨default, hleave, hcloses⟩ := rewrites_leave hinner.grows.tidy
    (hinner.grows.lt_size henters.blank_next.lt_size) hview hsymbols hleave
  exact ⟨next, σ₃, σ₄, inner, default, henters, hread, hinner, hleave, hcloses⟩

/-- An arc with longer segments behind it. -/
theorem opens_readArc_inner {path : Text} {c : Char} {isMember : Bool} {below : Forest} {r : Unit}
    (hσ : σ.automaton.Tidy) (hs : s < σ.automaton.size)
    (hc : ∀ b ∈ (σ.view s).arcs, b.symbol ≠ .char c) (hbelow : below.isEmpty = false)
    (ih : ∀ {σ σ₁ : Assembly} {s : StateId} {r : Unit}, Blank σ s →
      Yields (readForest i u exit (path ++ [c]) below s) σ r σ₁ → ∃ new, Opens σ s new σ₁ fun a =>
        Branched a i u exit (path ++ [c]) below new)
    (h : Yields (readArc i u exit path c isMember below s) σ r σ₁) :
    ∃ target tr, Opens σ s [⟨.char c, target, tr⟩] σ₁ fun a =>
      Reaches a i u exit (path ++ [c]) isMember below.isEmpty
        (Branched a i u exit (path ++ [c]) below) target tr := by
  obtain ⟨next, _, _, inner, default, henters, _, hinner, hleave, hcloses⟩ :=
    enters_readArc hσ hs hc hbelow ih h
  have hopens := henters.opens hs hinner hleave
  refine ⟨next, u.map TargetUnit.null, hopens.grows, hopens.units_eq, hopens.view_self,
    fun {a} ha => ?_⟩
  obtain ⟨hbranched, hview, hkeeps⟩ := hopens.laid ha
  rw [Reaches, hbelow, if_neg Bool.false_ne_true]
  refine ⟨rfl, inner, default, hbranched, ?_⟩
  cases isMember with
  | false => exact hview
  | true => exact ⟨hkeeps.closes (hcloses rfl), hview⟩

/-- The segments of a forest are laid out between the state `s` and `exit`. -/
theorem opens_readForest : ∀ {t : Forest} {path : Text} {s : StateId} {σ σ₁ : Assembly} {r : Unit},
    t.WellFormed → σ.automaton.Tidy → s < σ.automaton.size →
    (∀ b ∈ (σ.view s).arcs, ∀ c ∈ t.firstChars, b.symbol ≠ .char c) →
    Yields (readForest i u exit path t s) σ r σ₁ →
    ∃ new, Opens σ s new σ₁ fun a => Branched a i u exit path t new
  | .empty, path, s, σ, σ₁, r, _, hσ, hs, _, h => by
    obtain ⟨-, rfl⟩ := yields_pure.mp h
    exact ⟨[], .refl hσ s, rfl, by rw [List.append_nil], fun _ => rfl⟩
  | .branch c isMember below beside, path, s, σ, σ₁, r, hwf, hσ, hs, hfresh, h => by
    obtain ⟨hmember, hbefore, hwfBelow, hwfBeside⟩ := hwf
    rw [readForest_branch] at h
    obtain ⟨_, σ₂, harc, hrest⟩ := yields_bind.mp h
    have hc : ∀ b ∈ (σ.view s).arcs, b.symbol ≠ .char c :=
      fun b hb => hfresh b hb c (List.mem_cons_self ..)
    obtain ⟨target, tr, harc⟩ : ∃ target tr, Opens σ s [⟨.char c, target, tr⟩] σ₂ fun a =>
        Reaches a i u exit (path ++ [c]) isMember below.isEmpty
          (Branched a i u exit (path ++ [c]) below) target tr := by
      cases hbelow : below.isEmpty with
      | false =>
        rw [← hbelow]
        exact opens_readArc_inner hσ hs hc hbelow (fun hs h => opens_readForest hwfBelow hs.tidy
          hs.lt_size (by simp [hs.view_eq]) h) harc
      | true =>
        obtain rfl := Forest.eq_empty_of_isEmpty hbelow
        rw [hmember rfl] at harc ⊢
        obtain ⟨tr, harc⟩ := opens_readArc_leaf hσ hs hc harc
        exact ⟨exit, tr, harc⟩
    obtain ⟨new, hnew⟩ := opens_readForest hwfBeside harc.grows.tidy (harc.grows.lt_size hs)
      (harc.fresh rfl hbefore hfresh) hrest
    have hall := harc.trans hs hnew
    exact ⟨_, hall.grows, hall.units_eq, hall.view_self, fun ha =>
      ⟨target, tr, new, rfl, (hall.laid ha).1, (hall.laid ha).2⟩⟩

/-! ## Texts and sets of segments -/

/-- A text of the target begins a unit, and is then spelled with transforms that end the unit. -/
theorem spell_of_readText {text : Text} {m : Emission} (hσ : σ.automaton.Tidy)
    (h : Yields (readText i text (some m) s) σ t σ₁) :
    ∃ u last σ₂, Quiet σ σ₂ ∧ σ₂.units = σ.units + 1 ∧
      IsUnit σ₂.automaton (.utterance text) m σ.units u ∧ Ends σ₂.automaton i u text last ∧
      Yields (spell true (some (u.null, last)) text s) σ₂ t σ₁ := by
  obtain ⟨number, replacement, null, last, _, _, σ₂, hunit, hreplacement, hnull, hlast, hspell⟩ :=
    yields_readText h
  obtain ⟨hquiet, rfl, hunits⟩ := quiet_addUnit hσ hunit
  obtain ⟨hquiet', htransform, hunits'⟩ := quiet_addTransform hquiet.tidy hnull
  let u : TargetUnit :=
    ⟨m, σ.units, null, (Element.utterance text).display, m.display⟩
  obtain ⟨hquiet₂, hends, hunits₂⟩ := quiet_last (v := u) hquiet'.tidy hreplacement hlast
  exact ⟨u, last, σ₂, (hquiet.trans hquiet').trans hquiet₂,
    hunits₂.trans (hunits'.trans hunits),
    ⟨rfl, rfl, rfl, rfl, hquiet₂.transform_eq htransform⟩, hends, hspell⟩

theorem lays_readText {text : Text} (hs : Blank σ s) (h : Yields (readText i text m s) σ t σ₁) :
    Lays σ s σ₁ t fun a => LaidText a i text m s t σ.units σ₁.units := by
  cases m with
  | none =>
    obtain ⟨hlays, hunits⟩ := lays_spell hs h
    exact hlays.mono fun a ha => ⟨hunits, ha⟩
  | some m =>
    obtain ⟨u, last, σ₂, hquiet, hunits, hunit, hends, hspell⟩ := spell_of_readText hs.tidy h
    obtain ⟨hlays, hunits'⟩ := lays_spell (hquiet.blank hs) hspell
    exact ((Lays.of_quiet hquiet hs).trans hlays).mono fun a ha =>
      ⟨hunits'.trans hunits, u, last, ha.1.isUnit hunit, ha.1.ends hends, ha.2⟩

theorem quiet_begin (hσ : σ.automaton.Tidy) (h : Yields (m.mapM (beginUnit e)) σ u σ₁) :
    Quiet σ σ₁ ∧ ∀ {a owned}, Keeps a σ₁ owned → Begins a e m σ.units σ₁.units u := by
  cases m with
  | none =>
    obtain ⟨rfl, rfl⟩ := yields_pure.mp h
    exact ⟨.refl hσ, fun _ => ⟨rfl, rfl⟩⟩
  | some m =>
    obtain ⟨v, hbegin, rfl⟩ := yields_map.mp h
    obtain ⟨hquiet, hunit, hunits⟩ := quiet_beginUnit hσ hbegin
    exact ⟨hquiet, fun ha => ⟨v, rfl, ha.isUnit hunit, hunits⟩⟩

/-- What a set is read with: its trie, the state where it ends, and the unit that it begins. -/
structure Trying (i : Inventory) (e : Element) (m : Option Emission) (σ : Assembly) (t : StateId)
    (trie : Trie) (u : Option TargetUnit) (σ₁ : Assembly) : Prop where
  trie_eq : i.trie e = .ok trie
  quiet : Quiet σ σ₁
  blank_exit : Blank σ₁ t
  exit_new : σ.automaton.size ≤ t
  origin : σ₁.automaton.origin? t = some m.isSome
  isSome_unit : u.isSome = m.isSome
  begins {a : Automaton} {owned : StateId → Prop} :
    Keeps a σ₁ owned → Begins a e m σ.units σ₁.units u

theorem Trying.wellFormed {trie : Trie} (h : Trying i e m σ t trie u σ₁) :
    trie.forest.WellFormed := by
  obtain ⟨members, -, rfl⟩ := Inventory.trie_eq_ok.mp h.trie_eq
  exact Trie.wellFormed_ofSet members

theorem trying_readSet (hσ : σ.automaton.Tidy) (h : Yields (readSet i e m s) σ t σ₁) :
    ∃ trie u σ₂, Trying i e m σ t trie u σ₂ ∧
      Yields (readForest i u t [] trie.forest s) σ₂ () σ₁ := by
  obtain ⟨trie, u, _, σ₂, htrie, hexit, hunit, hread⟩ := yields_readSet h
  have horigin := origin_addState hexit
  obtain ⟨hquiet, hid, hblank, hunits⟩ := quiet_addState hσ hexit
  obtain ⟨hquiet', hbegins⟩ := quiet_begin (e := e) hquiet.tidy hunit
  refine ⟨trie, u, σ₂, ⟨htrie, hquiet.trans hquiet', hquiet'.blank hblank, Nat.le_of_eq hid.symm,
    hquiet'.origin_eq horigin, ?_, fun ha => hunits ▸ hbegins ha⟩, hread⟩
  have hbegun := hbegins (.refl σ₂ fun _ => False)
  cases m with
  | none =>
    rw [hbegun.1]
    rfl
  | some m =>
    obtain ⟨v, rfl, -⟩ := hbegun
    rfl

/-- The arcs of the trie are those of the state where the set begins. -/
theorem Trying.lays {trie : Trie} {new : List Arc} {P : Automaton → Prop}
    (h : Trying i e m σ t trie u σ₁) (hs : Blank σ s) (hnew : Opens σ₁ s new σ₂ P) :
    Lays σ s σ₂ t fun a => P a ∧ a.view s = { arcs := new } ∧ Keeps a σ₁ fun _ => False := by
  have hs₁ := h.quiet.blank hs
  have hne : t ≠ s := Nat.ne_of_gt (Nat.lt_of_lt_of_le hs.lt_size h.exit_new)
  refine ⟨(h.quiet.grows s).trans hnew.grows (.inl rfl), ⟨hnew.grows.tidy,
    hnew.grows.lt_size h.blank_exit.lt_size, ?_⟩, .inr h.exit_new, fun {a} ha =>
      ⟨hnew.laid (ha.mono fun x hx => ⟨?_, .inr ?_, hx.2⟩), ?_, ha.back hnew.grows nofun⟩⟩
  · rw [hnew.grows.view_eq h.blank_exit.lt_size hne, h.blank_exit.view_eq]
  · exact Nat.ne_of_gt (Nat.lt_of_lt_of_le h.blank_exit.lt_size hx.1)
  · exact Nat.le_trans h.quiet.size_le hx.1
  · rw [ha.view_eq ⟨hne.symm, .inl rfl, hnew.grows.lt_size hs₁.lt_size⟩, hnew.view_self,
      hs₁.view_eq, List.nil_append]

theorem lays_readSet (hs : Blank σ s) (h : Yields (readSet i e m s) σ t σ₁) :
    Lays σ s σ₁ t fun a => LaidSet a i e m s t σ.units σ₁.units := by
  obtain ⟨trie, u, σ₂, htry, hread⟩ := trying_readSet hs.tidy h
  have hs₂ := htry.quiet.blank hs
  obtain ⟨new, hnew⟩ :=
    opens_readForest htry.wellFormed hs₂.tidy hs₂.lt_size (by simp [hs₂.view_eq]) hread
  refine (htry.lays hs hnew).mono fun a ⟨hbranched, hview, hkeeps⟩ =>
    ⟨trie, u, new, htry.trie_eq, ?_, hbranched, hview⟩
  rw [hnew.units_eq]
  exact htry.begins hkeeps

end SoundChange.Assembly
