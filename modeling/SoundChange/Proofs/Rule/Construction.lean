import SoundChange.Proofs.Rule.Segments

/-!
# Assembling gives the layout

Each construct of a rule is laid out by the function that assembles it. What stands in a row is put
together with `Lays.trans`, and what stands in a group with `Encloses`.

The result is `layout_of_automaton`: the automaton of a rule has the layout of its environment, from
the start to a final state. `Finishes` says what the final state adds to what has been laid out.
-/

namespace SoundChange.Assembly

open Layout

variable {a : Automaton} {σ σ₁ σ₂ σ₃ : Assembly} {s t join inner last : StateId}
  {c : Setting} {m : Option Emission} {ms : List Emission} {follow : FirstSet}
  {P : Automaton → Prop}

/-! ## Groups -/

/-- Something lies between the state `s` and a state outside, to which its end passes. It satisfies
`P` in every automaton that keeps `s` and the new states. -/
structure Encloses (σ : Assembly) (s : StateId) (σ₁ : Assembly) (P : Automaton → Prop) : Prop where
  grows : Grows σ s σ₁
  laid {a : Automaton} : Keeps a σ₁ (fun x => x = s ∨ New σ σ₁ x) → P a

/-- Blank states pass to another one by a silent edge. -/
theorem rewrites_addSilent_blank {r : Unit} (hs : Blank σ s)
    (h : Yields (addSilent s t) σ r σ₁) : Rewrites σ s { arcs := [silent t] } σ₁ := by
  have hedge := rewrites_addEdge hs.tidy hs.lt_size (by simp [hs.view_eq]) h
  rwa [hs.view_eq, addTo_of_fresh (by simp), List.nil_append] at hedge

/-- A blank state passes to two others. -/
theorem rewrites_fork {r r' : Unit} (hs : Blank σ s) (hne : inner ≠ t)
    (hin : Yields (addSilent s inner) σ r σ₁) (hby : Yields (addSilent s t) σ₁ r' σ₂) :
    Rewrites σ s { arcs := [silent inner, silent t] } σ₂ := by
  have hin := rewrites_addSilent_blank hs hin
  have hbare : ∀ b ∈ (σ₁.view s).arcs, b.symbol = .lambda → b.transform = none := by
    simp [hin.view_self]
  have hby := rewrites_addEdge hin.tidy (hin.lt_size hs.lt_size) hbare hby
  have hfork := hin.trans hby
  rwa [hin.view_self, Arc.addTo, if_neg (by simpa using hne.symm)] at hfork

/-- What is laid out in a group is enclosed once its end passes to the end of the group. -/
theorem Lays.encloses {r : Unit} (h : Lays σ s σ₁ last P)
    (hlast : Yields (addSilent last join) σ₁ r σ₂) :
    Encloses σ s σ₂ (fun a => P a ∧ a.view last = { arcs := [silent join] }) ∧
      σ₂.units = σ₁.units := by
  have hlast := rewrites_addSilent_blank h.blank hlast
  refine ⟨⟨h.grows.trans hlast.grows h.eq_or_new, fun {a} ha => ⟨h.laid ?_, ?_⟩⟩, hlast.units_eq⟩
  · refine ha.back hlast.grows fun x hx => ⟨?_, hx.2.2, hx.1⟩
    rcases hx.2.1 with rfl | hle
    · exact .inl rfl
    · exact .inr ⟨hle, hlast.lt_size hx.2.2⟩
  · rw [ha.view_eq ?_, hlast.view_self]
    rcases h.eq_or_new with rfl | hle
    · exact .inl rfl
    · exact .inr ⟨hle, hlast.lt_size h.blank.lt_size⟩

/-- The state `s` passes to two new ones: where the body of a group begins, and where the group
ends. -/
structure Forks (σ : Assembly) (s : StateId) (inTarget : Bool) (t inner : StateId)
    (σ₁ : Assembly) : Prop where
  rewrites : Rewrites σ s { arcs := [silent inner, silent t] } σ₁
  blank_exit : Blank σ₁ t
  blank_inner : Blank σ₁ inner
  origin_exit : σ₁.automaton.origin? t = some inTarget
  origin_inner : σ₁.automaton.origin? inner = some inTarget
  ne : inner ≠ t
  exit_new : σ.automaton.size ≤ t
  inner_new : σ.automaton.size ≤ inner

theorem forks_forkGroup (hs : Blank σ s) (h : Yields (forkGroup m s) σ (t, inner) σ₁) :
    Forks σ s m.isSome t inner σ₁ := by
  obtain ⟨bypass, σ₂, hbypass, h₂⟩ := yields_bind.mp h
  obtain ⟨inner', σ₃, hinner, h₃⟩ := yields_bind.mp h₂
  obtain ⟨_, σ₄, hin, h₄⟩ := yields_bind.mp h₃
  obtain ⟨_, σ₅, hby, h₅⟩ := yields_bind.mp h₄
  obtain ⟨heq, rfl⟩ := yields_pure.mp h₅
  obtain ⟨rfl, rfl⟩ := Prod.mk.inj heq
  have htorigin := origin_addState hbypass
  have hiorigin := origin_addState hinner
  obtain ⟨hquiet₂, htid, ht, hunits₂⟩ := quiet_addState hs.tidy hbypass
  obtain ⟨hquiet₃, hiid, hi, hunits₃⟩ := quiet_addState hquiet₂.tidy hinner
  have hquiet := hquiet₂.trans hquiet₃
  have hts : t ≠ s := htid ▸ Nat.ne_of_gt hs.lt_size
  have hit : inner ≠ t := hiid ▸ Nat.ne_of_gt ht.lt_size
  have his : inner ≠ s := hiid ▸ Nat.ne_of_gt (hquiet₂.lt_size hs.lt_size)
  have hfork := rewrites_fork (hquiet.blank hs) hit hin hby
  have ht₃ := hquiet₃.blank ht
  exact ⟨(hquiet.rewrites (hunits₃.trans hunits₂) s).trans hfork,
    ⟨hfork.tidy, hfork.lt_size ht₃.lt_size, (hfork.view_of_ne hts).trans ht₃.view_eq⟩,
    ⟨hfork.tidy, hfork.lt_size hi.lt_size, (hfork.view_of_ne his).trans hi.view_eq⟩,
    hfork.origin_eq (hquiet₃.origin_eq htorigin), hfork.origin_eq hiorigin, hit,
    Nat.le_of_eq htid.symm, hiid ▸ hquiet₂.size_le⟩

/-- A group is laid out once the end of its body passes to the end of the group. -/
theorem Forks.lays {r : Unit} {inTarget : Bool} (h : Forks σ s inTarget t inner σ₁) (hs : Blank σ s)
    (hbody : Lays σ₁ inner σ₂ last P) (hlast : Yields (addSilent last t) σ₂ r σ₃) :
    Lays σ s σ₃ t (fun a => a.view s = { arcs := [silent inner, silent t] } ∧ P a ∧
      a.view last = { arcs := [silent t] }) ∧ σ₃.units = σ₂.units := by
  have hts : t ≠ s := Nat.ne_of_gt (Nat.lt_of_lt_of_le hs.lt_size h.exit_new)
  have his : inner ≠ s := Nat.ne_of_gt (Nat.lt_of_lt_of_le hs.lt_size h.inner_new)
  obtain ⟨hbody, hunits⟩ := hbody.encloses hlast
  have hlt : s < σ₃.automaton.size := hbody.grows.lt_size (h.rewrites.lt_size hs.lt_size)
  have hs₃ : σ₃.view s = { arcs := [silent inner, silent t] } := by
    rw [hbody.grows.view_eq (h.rewrites.lt_size hs.lt_size) his.symm, h.rewrites.view_self]
  refine ⟨⟨h.rewrites.grows.trans hbody.grows (.inr h.inner_new),
    ⟨hbody.grows.tidy, hbody.grows.lt_size h.blank_exit.lt_size, ?_⟩, .inr h.exit_new,
    fun {a} ha => ⟨(ha.view_eq ⟨hts.symm, .inl rfl, hlt⟩).trans hs₃, hbody.laid ?_⟩⟩, hunits⟩
  · rw [hbody.grows.view_eq h.blank_exit.lt_size h.ne.symm, h.blank_exit.view_eq]
  · refine ha.mono fun x hx => ?_
    rcases hx with rfl | hx
    · exact ⟨h.ne, .inr h.inner_new, hbody.grows.lt_size h.blank_inner.lt_size⟩
    · exact ⟨Nat.ne_of_gt (Nat.lt_of_lt_of_le h.blank_exit.lt_size hx.1),
        .inr (Nat.le_trans h.rewrites.size_le hx.1), hx.2⟩

/-- What is assembled for a sequence. -/
def LaysSequence (c : Setting) (T : Automaton → Plan) (ms : List Emission) (follow : FirstSet)
    (es : List Element) : Prop :=
  ∀ {σ σ₁ : Assembly} {s t : StateId}, Blank σ s →
    Yields (readSequence c ms follow es s) σ t σ₁ →
    Lays σ s σ₁ t fun a => LaidAll c a (T a) ms follow es s t σ.units σ₁.units

variable {T : Automaton → Plan}

theorem lays_optional {body : List Element}
    (hbody : ∀ ms, LaysSequence c T ms follow body) (hs : Blank σ s)
    (h : Yields (readElement c m follow (.optional body) s) σ t σ₁) :
    Lays σ s σ₁ t fun a => Laid c a (T a) m follow (.optional body) s t σ.units σ₁.units := by
  obtain ⟨inner, ms, last, _, _, hfork, hms, hsequence, hlast⟩ := yields_optional h
  have hfork := forks_forkGroup hs hfork
  obtain ⟨hlays, hunits⟩ := hfork.lays hs (hbody ms hfork.blank_inner hsequence) hlast
  refine hlays.mono fun a ⟨hview, hlaid, hlast⟩ => ?_
  rw [hfork.rewrites.units_eq, ← hunits] at hlaid
  exact ⟨inner, last, ms, hview, hms, hlaid, hlast⟩

/-! ## Choices -/

/-- Arcs without transforms stay so when a further one is added. -/
theorem bare_addTo {arcs : List Arc} {d : Symbol} (h : ∀ b ∈ arcs, b.transform = none) :
    ∀ b ∈ Arc.addTo arcs ⟨d, t, none⟩, b.transform = none := by
  intro b hb
  rcases Arc.mem_addTo.mp hb with hb | rfl
  · exact h b hb
  · rfl

theorem rewrites_rejectAll : ∀ {symbols : List Symbol} {σ : Assembly}, σ.automaton.Tidy →
    s < σ.automaton.size → (∀ b ∈ (σ.view s).arcs, b.transform = none) →
    Yields (rejectAll s symbols) σ () σ₁ →
    Rewrites σ s { σ.view s with
      arcs := (symbols.map reject).foldl Arc.addTo (σ.view s).arcs } σ₁
  | [], σ, hσ, _, _, h => by
    obtain rfl := yields_change.mp h
    exact (Quiet.refl hσ).rewrites rfl s
  | d :: symbols, σ, hσ, hs, hbare, h => by
    have hfirst := rewrites_addEdge (u := ()) (c := d) (t := Automaton.reject) hσ hs
      (fun b hb _ => hbare b hb) (yields_change.mpr rfl)
    have hrest : Yields (rejectAll s symbols)
        { σ with automaton := σ.automaton.addEdge s d Automaton.reject } () σ₁ :=
      yields_change.mpr (yields_change.mp h)
    have hrest := rewrites_rejectAll hfirst.tidy (hfirst.lt_size hs)
      (by rw [hfirst.view_self]; exact bare_addTo hbare) hrest
    have hall := hfirst.trans hrest
    rwa [hfirst.view_self] at hall

/-- The state `s` passes to one more state, a new one where a branch begins. -/
structure Branches (σ : Assembly) (s : StateId) (inTarget : Bool) (fork : StateId)
    (σ₁ : Assembly) : Prop where
  rewrites : Rewrites σ s { σ.view s with arcs := Arc.addTo (σ.view s).arcs (silent fork) } σ₁
  blank_fork : Blank σ₁ fork
  origin_fork : σ₁.automaton.origin? fork = some inTarget
  fork_new : σ.automaton.size ≤ fork

theorem branches_beginBranch {fork : StateId} (hσ : σ.automaton.Tidy) (hs : s < σ.automaton.size)
    (hbare : ∀ b ∈ (σ.view s).arcs, b.transform = none)
    (h : Yields (beginBranch m s) σ fork σ₁) : Branches σ s m.isSome fork σ₁ := by
  obtain ⟨_, σ₂, hstate, h₂⟩ := yields_bind.mp h
  obtain ⟨_, σ₃, hsilent, h₃⟩ := yields_bind.mp h₂
  obtain ⟨rfl, rfl⟩ := yields_pure.mp h₃
  have horigin := origin_addState hstate
  obtain ⟨hquiet, hid, hblank, hunits⟩ := quiet_addState hσ hstate
  have hne : fork ≠ s := hid ▸ Nat.ne_of_gt hs
  have hsilent := rewrites_addEdge hquiet.tidy (hquiet.lt_size hs)
    (by rw [hquiet.view_eq]; exact fun b hb _ => hbare b hb) hsilent
  rw [hquiet.view_eq] at hsilent
  exact ⟨(hquiet.rewrites hunits s).trans hsilent, ⟨hsilent.tidy, hsilent.lt_size hblank.lt_size,
    (hsilent.view_of_ne hne).trans hblank.view_eq⟩, hsilent.origin_eq horigin,
    Nat.le_of_eq hid.symm⟩

/-- A branch is laid out once its end passes to where the branches end. -/
theorem Branches.lays {inTarget : Bool} {fork : StateId} {r : Unit}
    (h : Branches σ s inTarget fork σ₁)
    (hs : s < σ.automaton.size) (hbody : Lays σ₁ fork σ₂ last P)
    (hlast : Yields (addSilent last join) σ₂ r σ₃) :
    Grows σ s σ₃ ∧ σ₃.units = σ₂.units ∧
      σ₃.view s = { σ.view s with arcs := Arc.addTo (σ.view s).arcs (silent fork) } ∧
      ∀ {a}, Keeps a σ₃ (New σ σ₃) → P a ∧ a.view last = { arcs := [silent join] } := by
  have hne : fork ≠ s := Nat.ne_of_gt (Nat.lt_of_lt_of_le hs h.fork_new)
  obtain ⟨hbody, hunits⟩ := hbody.encloses hlast
  refine ⟨h.rewrites.grows.trans hbody.grows (.inr h.fork_new), hunits, ?_,
    fun {a} ha => hbody.laid (ha.mono fun x hx => ?_)⟩
  · rw [hbody.grows.view_eq (h.rewrites.lt_size hs) hne.symm, h.rewrites.view_self]
  · rcases hx with rfl | hx
    · exact ⟨h.fork_new, hbody.grows.lt_size h.blank_fork.lt_size⟩
    · exact ⟨Nat.le_trans h.rewrites.size_le hx.1, hx.2⟩

/-- One branch and the others. -/
theorem laidBranches_cons {T : Plan} {branch : List Element} {branches : List (List Element)}
    {fork : StateId} {forks : List StateId} {n k n' : Nat}
    (h : LaidBranches c a T m follow join [branch] [fork] n k)
    (h' : LaidBranches c a T m follow join branches forks k n') :
    LaidBranches c a T m follow join (branch :: branches) (fork :: forks) n n' := by
  cases branch with
  | nil =>
    obtain ⟨rest, heq, hrest⟩ := h
    obtain ⟨rfl, rfl⟩ := List.cons.inj heq
    obtain ⟨-, rfl⟩ := hrest
    exact ⟨forks, rfl, h'⟩
  | cons e es =>
    obtain ⟨fork', rest, last, ms, k', heq, hms, hlaid, hlast, hrest⟩ := h
    obtain ⟨rfl, rfl⟩ := List.cons.inj heq
    obtain ⟨-, rfl⟩ := hrest
    exact ⟨fork, forks, last, ms, k, rfl, hms, hlaid, hlast, h'⟩

/-- The state `s` passes to where the branch begins, which is new, or to where the branches end. -/
theorem lays_readBranch {branch : List Element} {r : Unit}
    (hbody : ∀ ms, LaysSequence c T ms follow branch) (hσ : σ.automaton.Tidy)
    (hs : s < σ.automaton.size) (hbare : ∀ b ∈ (σ.view s).arcs, b.transform = none)
    (h : Yields (readBranch c m follow join s branch) σ r σ₁) :
    ∃ fork, (fork = join ∨ σ.automaton.size ≤ fork) ∧ Grows σ s σ₁ ∧
      σ₁.view s = { σ.view s with arcs := Arc.addTo (σ.view s).arcs (silent fork) } ∧
      ∀ {a}, Keeps a σ₁ (New σ σ₁) →
        LaidBranches c a (T a) m follow join [branch] [fork] σ.units σ₁.units := by
  cases branch with
  | nil =>
    have hsilent := rewrites_addEdge hσ hs (fun b hb _ => hbare b hb) h
    exact ⟨join, .inl rfl, hsilent.grows, hsilent.view_self, fun _ =>
      ⟨[], rfl, rfl, hsilent.units_eq⟩⟩
  | cons e es =>
    obtain ⟨fork, ms, last, _, _, hbegin, hms, hsequence, hlast⟩ := yields_readBranch_cons h
    have hbegin := branches_beginBranch hσ hs hbare hbegin
    obtain ⟨hgrows, hunits, hview, hlaid⟩ :=
      hbegin.lays hs (hbody ms hbegin.blank_fork hsequence) hlast
    refine ⟨fork, .inr hbegin.fork_new, hgrows, hview, fun {a} ha => ?_⟩
    obtain ⟨hlaid, hlast⟩ := hlaid ha
    rw [hbegin.rewrites.units_eq, ← hunits] at hlaid
    exact ⟨fork, [], last, ms, σ₁.units, rfl, hms, hlaid, hlast, rfl, rfl⟩

theorem lays_readBranches {branches : List (List Element)} {first : FirstSet}
    (hbody : ∀ branch ∈ branches, ∀ ms, LaysSequence c T ms follow branch)
    (hσ : σ.automaton.Tidy) (hs : s < σ.automaton.size)
    (hbare : ∀ b ∈ (σ.view s).arcs, b.transform = none)
    (h : Yields (readBranches c m follow join branches s) σ first σ₁) :
    FirstSet.ofBranches c.inventory c.first branches = .ok first ∧ ∃ forks,
      (∀ f ∈ forks, f = join ∨ σ.automaton.size ≤ f) ∧
      Grows σ s σ₁ ∧ σ₁.view s = { σ.view s with
        arcs := (forks.map silent).foldl Arc.addTo (σ.view s).arcs } ∧
      ∀ {a}, Keeps a σ₁ (New σ σ₁) →
        LaidBranches c a (T a) m follow join branches forks σ.units σ₁.units := by
  induction branches generalizing σ first with
  | nil =>
    rw [readBranches] at h
    obtain ⟨rfl, rfl⟩ := yields_pure.mp h
    exact ⟨rfl, [], List.forall_mem_nil _, .refl hσ s, rfl, fun _ => ⟨rfl, rfl⟩⟩
  | cons branch branches ih =>
    obtain ⟨head, rest, _, hhead, hbranch, hrest, rfl⟩ := yields_readBranches_cons h
    obtain ⟨fork, hfork, hgrows, hview, hlaid⟩ :=
      lays_readBranch (hbody _ (List.mem_cons_self ..)) hσ hs hbare hbranch
    obtain ⟨hfirst, forks, hforks, hgrows', hview', hlaid'⟩ := ih
      (fun branch hb => hbody branch (List.mem_cons_of_mem _ hb)) hgrows.tidy
      (hgrows.lt_size hs) (by rw [hview]; exact bare_addTo hbare) hrest
    refine ⟨?_, fork :: forks, ?_, hgrows.trans hgrows' (.inl rfl), ?_, fun {a} ha =>
      laidBranches_cons (hlaid (ha.back hgrows' fun x hx => ?_)) (hlaid' (ha.mono fun x hx => ?_))⟩
    · rw [FirstSet.ofBranches, hhead, hfirst]
      rfl
    · exact List.forall_mem_cons.mpr
        ⟨hfork, fun f hf => (hforks f hf).imp_right (Nat.le_trans hgrows.size_le)⟩
    · rw [hview', hview]
      rfl
    · exact ⟨⟨hx.1, hgrows'.lt_size hx.2⟩, hx.2, Nat.ne_of_gt (Nat.lt_of_lt_of_le hs hx.1)⟩
    · exact ⟨Nat.le_trans hgrows.size_le hx.1, hx.2⟩

/-- The branches of a choice are there: unless it can match nothing, the symbols that begin none of
them are forbidden. -/
theorem rewrites_reject {first : FirstSet} {forks : List StateId} (hσ : σ.automaton.Tidy)
    (hs : s < σ.automaton.size)
    (hview : σ.view s = { arcs := (forks.map silent).foldl Arc.addTo [] })
    (h : Yields (if first.nullable then return join
      else do
        rejectAll s (follow.symbols.filter fun d => !first.symbols.contains d).toList
        return join) σ t σ₁) :
    t = join ∧ Rewrites σ s { arcs :=
      (forks.map silent ++ (rejected first follow).map reject).foldl Arc.addTo [] } σ₁ := by
  rw [List.foldl_append]
  split at h
  · rename_i hnullable
    obtain ⟨rfl, rfl⟩ := yields_pure.mp h
    refine ⟨rfl, ?_⟩
    rw [rejected, if_pos hnullable, List.map_nil, List.foldl_nil, ← hview]
    exact (Quiet.refl hσ).rewrites rfl s
  · rename_i hnullable
    obtain ⟨_, σ₂, hreject, h⟩ := yields_bind.mp h
    obtain ⟨rfl, rfl⟩ := yields_pure.mp h
    refine ⟨rfl, ?_⟩
    have hbare : ∀ b ∈ (σ.view s).arcs, b.transform = none := by
      rw [hview]
      intro b hb
      rcases Arc.mem_foldl_addTo.mp hb with hb | hb
      · cases hb
      · obtain ⟨f, -, rfl⟩ := List.mem_map.mp hb
        rfl
    have hreject := rewrites_rejectAll hσ hs hbare hreject
    rw [hview] at hreject
    rwa [rejected, if_neg hnullable]

/-- How a choice is assembled: first a state where it ends, then the branches, for which `s` passes
to new states, and at last what `s` forbids. -/
structure Chooses (c : Setting) (m : Option Emission) (follow : FirstSet)
    (branches : List (List Element)) (σ : Assembly) (s t : StateId) (σ₁ σ₂ : Assembly)
    (first : FirstSet) (forks : List StateId) (σ₃ : Assembly) : Prop where
  join : Yields (addState m.isSome) σ t σ₁
  read : Yields (readBranches c m follow t branches s) σ₁ first σ₂
  first_eq : FirstSet.ofBranches c.inventory c.first branches = .ok first
  fork_new : ∀ f ∈ forks, σ.automaton.size ≤ f
  view_forked : σ₂.view s = { arcs := (forks.map silent).foldl Arc.addTo [] }
  rejects : Rewrites σ₂ s { arcs :=
    (forks.map silent ++ (rejected first follow).map reject).foldl Arc.addTo [] } σ₃

/-- How a choice is laid out: its branches are kept. -/
theorem lays_choice {branches : List (List Element)}
    (hbody : ∀ branch ∈ branches, ∀ ms, LaysSequence c T ms follow branch) (hs : Blank σ s)
    (h : Yields (readElement c m follow (.disjunction branches) s) σ t σ₁) :
    ∃ σ₂ σ₃ first forks, Chooses c m follow branches σ s t σ₂ σ₃ first forks σ₁ ∧
      Lays σ s σ₁ t fun a => Keeps a σ₃ (New σ₂ σ₃) ∧
        LaidBranches c a (T a) m follow t branches forks σ.units σ₁.units ∧ a.view s =
          { arcs :=
            (forks.map silent ++ (rejected first follow).map reject).foldl Arc.addTo [] } := by
  obtain ⟨join, first, σ₂, σ₃, hjoin, hbranches, hend⟩ := yields_disjunction h
  obtain ⟨hquiet, hid, hblank, hunits₂⟩ := quiet_addState hs.tidy hjoin
  have hs₂ := hquiet.blank hs
  obtain ⟨hfirst, forks, hforks, hgrows, hview, hlaid⟩ := lays_readBranches hbody hs₂.tidy
    hs₂.lt_size (by simp [hs₂.view_eq]) hbranches
  have hlt₃ := hgrows.lt_size hs₂.lt_size
  rw [hs₂.view_eq] at hview
  obtain ⟨rfl, hreject⟩ := rewrites_reject hgrows.tidy hlt₃ hview hend
  have hne : t ≠ s := hid ▸ Nat.ne_of_gt hs.lt_size
  have hlt := hgrows.lt_size hblank.lt_size
  refine ⟨σ₂, σ₃, first, forks, ⟨hjoin, hbranches, hfirst, fun f hf => ?_, hview, hreject⟩,
    (hquiet.grows s).trans (hgrows.trans hreject.grows (.inl rfl)) (.inl rfl),
    ⟨hreject.tidy, hreject.lt_size hlt, ?_⟩, .inr (Nat.le_of_eq hid.symm), fun {a} ha => ?_⟩
  · rcases hforks f hf with rfl | hnew
    · exact Nat.le_of_eq hid.symm
    · exact Nat.le_trans hquiet.size_le hnew
  · rw [hreject.view_of_ne hne, hgrows.view_eq hblank.lt_size hne, hblank.view_eq]
  · have hkeeps : Keeps a σ₃ (New σ₂ σ₃) := by
      refine ha.back hreject.grows fun x hx => ⟨⟨?_, .inr ?_, ?_⟩, hx.2, ?_⟩
      · exact Nat.ne_of_gt (Nat.lt_of_lt_of_le hblank.lt_size hx.1)
      · exact Nat.le_trans hquiet.size_le hx.1
      · exact hreject.lt_size hx.2
      · exact Nat.ne_of_gt (Nat.lt_of_lt_of_le hs₂.lt_size hx.1)
    have hlaid := hlaid hkeeps
    rw [hunits₂, ← hreject.units_eq] at hlaid
    exact ⟨hkeeps, hlaid,
      (ha.view_eq ⟨hne.symm, .inl rfl, hreject.lt_size hlt₃⟩).trans hreject.view_self⟩

theorem lays_disjunction {branches : List (List Element)}
    (hbody : ∀ branch ∈ branches, ∀ ms, LaysSequence c T ms follow branch) (hs : Blank σ s)
    (h : Yields (readElement c m follow (.disjunction branches) s) σ t σ₁) :
    Lays σ s σ₁ t fun a =>
      Laid c a (T a) m follow (.disjunction branches) s t σ.units σ₁.units := by
  obtain ⟨_, _, first, forks, hchooses, hlays⟩ := lays_choice hbody hs h
  exact hlays.mono fun a ha => ⟨forks, first, ha.2.1, hchooses.first_eq, ha.2.2⟩

/-! ## All elements -/

/-- What is assembled for the placeholder. -/
def LaysTarget (c : Setting) (T : Automaton → Plan) : Prop :=
  ∀ {σ σ₁ : Assembly} {s t : StateId} {follow : FirstSet}, Blank σ s →
    Yields (c.readTarget s follow) σ t σ₁ →
    Lays σ s σ₁ t fun a => T a follow s t σ.units σ₁.units

theorem lays_boundary {edge : WordEdge} (hs : Blank σ s)
    (h : Yields (readElement c m follow (.boundary edge) s) σ t σ₁) :
    Lays σ s σ₁ t fun a => Laid c a (T a) m follow (.boundary edge) s t σ.units σ₁.units := by
  obtain ⟨_, hstate, harc⟩ := yields_boundary h
  obtain ⟨hlays, hunits⟩ := lays_arc hs hstate harc
  exact hlays.mono fun a ha => ⟨hunits, ha⟩

mutual

theorem lays_readElement (hT : LaysTarget c T) : ∀ (e : Element) {m : Option Emission}
    {follow : FirstSet} {σ σ₁ : Assembly} {s t : StateId}, Blank σ s →
    Yields (readElement c m follow e s) σ t σ₁ →
    Lays σ s σ₁ t fun a => Laid c a (T a) m follow e s t σ.units σ₁.units
  | .utterance text, m, follow, σ, σ₁, s, t, hs, h => by
    rw [readElement] at h
    exact lays_readText hs h
  | .set ref, m, follow, σ, σ₁, s, t, hs, h => by
    rw [readElement] at h
    exact lays_readSet hs h
  | .compound refs, m, follow, σ, σ₁, s, t, hs, h => by
    rw [readElement] at h
    exact lays_readSet hs h
  | .optional body, m, follow, σ, σ₁, s, t, hs, h =>
    lays_optional (fun _ => lays_readSequence hT body) hs h
  | .disjunction branches, m, follow, σ, σ₁, s, t, hs, h =>
    lays_disjunction (lays_branches hT branches) hs h
  | .boundary edge, m, follow, σ, σ₁, s, t, hs, h => lays_boundary hs h
  | .placeholder, m, follow, σ, σ₁, s, t, hs, h => by
    rw [readElement] at h
    cases m with
    | none => exact hT hs h
    | some m =>
      obtain ⟨rfl, rfl⟩ := yields_pure.mp h
      exact .refl hs fun _ => ⟨rfl, rfl⟩

theorem lays_readSequence (hT : LaysTarget c T) : ∀ (es : List Element) {ms : List Emission}
    {follow : FirstSet}, LaysSequence c T ms follow es
  | [], ms, follow, σ, σ₁, s, t, hs, h => by
    rw [readSequence] at h
    obtain ⟨rfl, rfl⟩ := yields_pure.mp h
    exact .refl hs fun _ => ⟨rfl, rfl⟩
  | e :: es, ms, follow, σ, σ₁, s, t, hs, h => by
    obtain ⟨after, next, σ₂, hafter, helement, hrest⟩ := yields_readSequence_cons h
    have helement := lays_readElement hT e hs helement
    exact (helement.trans (lays_readSequence hT es helement.blank hrest)).mono fun a ha =>
      ⟨after, next, σ₂.units, hafter, ha⟩

theorem lays_branches (hT : LaysTarget c T) : ∀ (branches : List (List Element))
    {follow : FirstSet}, ∀ branch ∈ branches, ∀ ms, LaysSequence c T ms follow branch
  | [], _, _, h, _ => nomatch h
  | branch :: branches, follow, other, h, ms => by
    rcases List.mem_cons.mp h with h | h
    · exact h ▸ lays_readSequence hT branch
    · exact lays_branches hT branches other h ms

end

/-! ## Whole rules -/

variable {i : Inventory} {rule : Rule} {strip : Bool}

/-- In a target, a placeholder stands for nothing. -/
theorem lays_noTarget : LaysTarget (targetSetting i rule) fun _ _ s t n n' => t = s ∧ n' = n := by
  intro σ σ₁ s t follow hs h
  obtain ⟨rfl, rfl⟩ := yields_pure.mp h
  exact .refl hs fun _ => ⟨rfl, rfl⟩

/-- What is assembled for the placeholder is the target, each element with its emission. -/
theorem yields_readTarget {follow : FirstSet} :
    Yields (rule.readTarget i s follow) σ t σ₁ ↔
      ∃ ms, Emission.align [] rule.result rule.target = some ms ∧
        Yields (readSequence (targetSetting i rule) ms follow rule.target s) σ t σ₁ := by
  rw [Rule.readTarget]
  cases halign : Emission.align [] rule.result rule.target with
  | none => exact ⟨fun h => absurd h not_yields_throw, fun ⟨_, h, _⟩ => nomatch h⟩
  | some ms => exact ⟨fun h => ⟨ms, rfl, h⟩, fun ⟨_, hms, h⟩ => Option.some.inj hms ▸ h⟩

theorem lays_readTarget :
    LaysTarget (environmentSetting i rule) fun a => LaidTarget i rule a := by
  intro σ σ₁ s t follow hs h
  obtain ⟨ms, halign, hread⟩ := yields_readTarget.mp h
  exact (lays_readSequence lays_noTarget rule.target hs hread).mono fun a ha => ⟨ms, halign, ha⟩

/-- At first the start is blank. -/
theorem blank_start : Blank {} Automaton.start :=
  ⟨Automaton.tidy_empty, by decide, rfl⟩

/-- The automaton of a rule is what is assembled for its environment, with the last state made
final. -/
theorem yields_of_automaton (h : rule.automaton i strip = .ok a) :
    ∃ last σ₁, Yields (readSequence (environmentSetting i rule) [] .nothing
      (rule.environmentFor strip) Automaton.start) {} last σ₁ ∧ a = σ₁.automaton.setFinal last := by
  rw [Rule.automaton] at h
  cases hrun : (rule.assemble i strip).run {} with
  | error e =>
    rw [hrun] at h
    cases h
  | ok result =>
    rw [hrun] at h
    cases h
    obtain ⟨last, σ₁, hsequence, hfinal⟩ := yields_bind.mp hrun
    rw [Rule.environmentFor_eq]
    exact ⟨last, σ₁, hsequence, congrArg Assembly.automaton (yields_change.mp hfinal)⟩

/-- The automaton `a` is what has been laid out from the start to the state `last`, which alone has
been made final. -/
structure Finishes (σ : Assembly) (last : StateId) (a : Automaton) : Prop where
  tidy : a.Tidy
  reject_lt : Automaton.reject < a.size
  view_last : a.view last = { isFinal := true }
  view_reject : a.view Automaton.reject = {}
  keeps : Keeps a σ (· ≠ last)

theorem Lays.finishes (h : Lays {} Automaton.start σ last P) :
    Finishes σ last (σ.automaton.setFinal last) := by
  have hlast : last < σ.automaton.size := h.blank.lt_size
  have hne : Automaton.reject ≠ last := by
    rintro rfl
    rcases h.eq_or_new with hstart | hnew
    · cases hstart
    · exact absurd hnew (by decide)
  refine ⟨h.grows.tidy.setFinal, ?_, ?_, ?_, ⟨⟨id, fun hx => Automaton.origin?_setFinal.trans hx⟩,
    Automaton.view_setFinal_of_ne hlast⟩⟩
  · exact Automaton.size_setFinal.symm ▸ h.grows.lt_size (by decide)
  · rw [Automaton.view_setFinal_self hlast, show σ.automaton.view last = {} from h.blank.view_eq]
  · rw [Automaton.view_setFinal_of_ne hlast hne]
    exact (h.grows.view_eq (by decide) (by decide)).trans Automaton.view_empty

/-- What is laid out between the start and the final state is found in the automaton. -/
theorem Finishes.laid (hfinishes : Finishes σ last a) (h : Lays {} Automaton.start σ last P) :
    P a :=
  h.laid (hfinishes.keeps.mono fun _ hx => hx.1)

/-- The automaton of a rule has the layout of the rule's environment, which ends in the only state
that it makes final. -/
theorem layout_of_automaton (h : rule.automaton i strip = .ok a) :
    a.edges.size = a.size ∧ a.view Automaton.reject = {} ∧ ∃ last n,
      a.view last = { isFinal := true } ∧
      LaidAll (environmentSetting i rule) a (LaidTarget i rule a) [] .nothing
        (rule.environmentFor strip) Automaton.start last 0 n := by
  obtain ⟨last, σ₁, hsequence, rfl⟩ := yields_of_automaton h
  have hlays := lays_readSequence lays_readTarget (rule.environmentFor strip) blank_start hsequence
  have hfinishes := hlays.finishes
  exact ⟨hfinishes.tidy.size_edges, hfinishes.view_reject, last, σ₁.units, hfinishes.view_last,
    hfinishes.laid hlays⟩

end SoundChange.Assembly
