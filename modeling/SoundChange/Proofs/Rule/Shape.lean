import SoundChange.Proofs.Rule.States

/-!
# The shape of what is assembled

What assembling texts, sets, groups and sequences does for the states of the automaton: there is one
lemma for each, up to `stands_readElement` and `stands_readSequence`. `Met` adds what the automaton
has for each visit: the arcs of a choice, and the edges that the target at a placeholder has got.

Assembling goes on behind what has been laid out and leaves it alone, so all this is stated of any
automaton that keeps it (`Lays`). What is assembled at a placeholder is a hypothesis
(`StandsTarget`).
-/

namespace SoundChange.Assembly

open Layout

variable {a : Automaton} {i : Inventory} {σ σ₁ σ₂ σ₃ : Assembly} {s t exit join last : StateId}
  {c : Setting} {m : Option Emission} {ms : List Emission} {follow : FirstSet} {e : Element}
  {u : Option TargetUnit} {inside : Bool} {read : StateId → FirstSet → Assemble StateId}
  {visits : List Visit}

/-! ## Texts and sets -/

theorem shaped_arc {d : Symbol} {tr : Option TransformId} {r : Unit} (hs : Blank σ s)
    (hlt : Automaton.reject < σ.automaton.size)
    (hstate : Yields (addState inside) σ t σ₁) (harc : Yields (addEdge s d t tr) σ₁ r σ₂)
    (hcarries : tr.isSome = (inside && d.char?.isSome)) :
    Lays σ s σ₂ t (Shaped inside read visits σ s σ₂ t) := by
  obtain ⟨hrewrites, hid, horigin⟩ := rewrites_arc hs hstate harc
  refine (lays_arc hs hstate harc).1.keeping.mono fun a ⟨hview, ha⟩ => ?_
  have hlead : LeadsOn a inside ⟨d, t, tr⟩ :=
    ⟨ha.origin_eq horigin, hid ▸ hlt, hcarries⟩
  exact shaped_rewrites hrewrites (shapely_single hview hlead) fun _ ht =>
    Automaton.settles_of_arcs hview (List.forall_mem_singleton.mpr ht)

theorem shaped_spell {tr : Option (TransformId × TransformId)} (htr : tr.isSome = inside) :
    ∀ {text : Text} {s : StateId} {σ : Assembly}, Blank σ s →
      Automaton.reject < σ.automaton.size → Yields (spell inside tr text s) σ t σ₁ →
      Lays σ s σ₁ t (Shaped inside read visits σ s σ₁ t)
  | [], s, σ, hs, _, h => by
    obtain ⟨rfl, rfl⟩ := yields_pure.mp h
    exact .refl hs fun _ => .of_quiet (.refl hs.tidy)
  | c :: cs, s, σ, hs, hlt, h => by
    obtain ⟨next, σ₂, hstate, h₂⟩ := yields_bind.mp h
    obtain ⟨_, σ₃, harc, hrest⟩ := yields_bind.mp h₂
    have hfirst : Lays σ s σ₃ next (Shaped inside read visits σ s σ₃ next) :=
      shaped_arc hs hlt hstate harc (by simp [htr, Symbol.char?])
    have hrest := shaped_spell htr hfirst.blank (hfirst.grows.lt_size hlt) hrest
    exact (hfirst.trans hrest).mono fun a ha => ha.1.trans ha.2

theorem shaped_readText {text : Text} (hs : Blank σ s) (hlt : Automaton.reject < σ.automaton.size)
    (h : Yields (readText i text m s) σ t σ₁) :
    Lays σ s σ₁ t (Shaped m.isSome read visits σ s σ₁ t) := by
  cases m with
  | none =>
    have hnone : (none : Option (TransformId × TransformId)).isSome = false := rfl
    exact shaped_spell hnone hs hlt h
  | some m =>
    obtain ⟨u, last, σ₂, hquiet, -, -, -, hspell⟩ := spell_of_readText hs.tidy h
    have hsome : (some (u.null, last)).isSome = true := rfl
    have hspell : Lays σ₂ s σ₁ t (Shaped true read visits σ₂ s σ₁ t) :=
      shaped_spell hsome (hquiet.blank hs) (hquiet.lt_size hlt) hspell
    exact ((Lays.of_quiet hquiet hs).trans hspell).mono fun a ha =>
      .trans (.of_quiet hquiet) ha.2

theorem isSome_of_closes {member : Text} {tr : Option TransformId}
    (h : Closes a i u member tr) : tr.isSome = u.isSome := by
  cases u with
  | none =>
    rw [show tr = none from h]
    rfl
  | some u =>
    obtain ⟨n, rfl, -⟩ := h
    rfl

/-- The arcs of a forest read different characters. -/
theorem pairwise_of_branched : ∀ {forest : Forest} {path : Text} {arcs : List Arc},
    forest.WellFormed → Branched a i u exit path forest arcs →
    arcs.Pairwise fun b c => b.symbol ≠ c.symbol
  | .empty, _, arcs, _, h => by
    rw [show arcs = [] from h]
    exact .nil
  | .branch c isMember below beside, _, arcs, ⟨_, hbefore, _, hwf⟩, h => by
    obtain ⟨target, tr, rest, rfl, -, hrest⟩ := h
    refine .cons (fun b hb heq => ?_) (pairwise_of_branched hwf hrest)
    obtain ⟨d, hd, hbd⟩ := symbol_of_branched hrest hb
    exact Ranked.ne_of_before (hbefore d hd) (Symbol.char.inj (heq.trans hbd))

/-- What the new arcs of a state lead to along a forest. -/
structure ShapedForest (i : Inventory) (u : Option TargetUnit) (inside : Bool)
    (read : StateId → FirstSet → Assemble StateId) (visits : List Visit) (exit : StateId)
    (path : Text) (forest : Forest) (σ : Assembly) (s : StateId) (σ₁ : Assembly) (new : List Arc)
    (a : Automaton) : Prop where
  branched : Branched a i u exit path forest new
  leads : ∀ b ∈ new, LeadsOn a inside b
  beside : ShapedBeside inside read visits σ s σ₁ exit (new.map Arc.target) a

namespace ShapedForest

variable {path : Text} {forest : Forest} {new : List Arc}

/-- A state with the arcs of a forest, and perhaps a silent one to where the set ends. -/
theorem shapely {default : Option TransformId} {leaves : Bool} (hwf : forest.WellFormed)
    (hexit : LeadsOn a inside (silent exit))
    (h : ShapedForest i u inside read visits exit path forest σ s σ₁ new a)
    (hview : a.view t = if leaves then { arcs := new ++ [silent exit], default }
      else { arcs := new }) : Shapely inside read visits a t := by
  have hread (b : Arc) (hb : b ∈ new) : ∃ c, b.symbol = .char c := by
    obtain ⟨c, -, hc⟩ := symbol_of_branched h.branched hb
    exact ⟨c, hc⟩
  have hdistinct := pairwise_of_branched hwf h.branched
  cases leaves with
  | true =>
    have hsome : a.view t = { arcs := new ++ (Option.map silent (some exit)).toList, default } :=
      hview
    exact shapely_reads hsome hread hdistinct (List.forall_mem_append.mpr
      ⟨h.leads, List.forall_mem_singleton.mpr hexit⟩) nofun
  | false =>
    have hnone : a.view t = { arcs := new ++ (Option.map silent none).toList } := by
      rw [hview]
      simp
    exact shapely_reads hnone hread hdistinct (by simpa using h.leads) fun _ => rfl

theorem settles {default : Option TransformId} {leaves : Bool}
    (h : ShapedForest i u inside read visits exit path forest σ s σ₁ new a)
    (hview : a.view t = if leaves then { arcs := new ++ [silent exit], default }
      else { arcs := new }) (hstop : a.Settles Automaton.reject) (hexit : a.Settles exit) :
    a.Settles t := by
  have hnew : ∀ b ∈ new, a.Settles b.target :=
    List.forall_mem_map.mp (h.beside.heads hstop hexit)
  cases leaves with
  | true =>
    exact Automaton.settles_of_arcs hview
      (List.forall_mem_append.mpr ⟨hnew, List.forall_mem_singleton.mpr hexit⟩)
  | false => exact Automaton.settles_of_arcs hview hnew

end ShapedForest

theorem Opens.new_unique {new new' : List Arc} {P Q : Automaton → Prop} (h : Opens σ s new σ₁ P)
    (h' : Opens σ s new' σ₁ Q) : new = new' :=
  List.append_cancel_left (congrArg View.arcs (h.view_self.symm.trans h'.view_self))

/-- The last arc of a segment leads to the state where the set ends. -/
theorem shaped_readArc_leaf {path : Text} {d : Char} {r : Unit} (hσ : σ.automaton.Tidy)
    (hs : s < σ.automaton.size) (hd : ∀ b ∈ (σ.view s).arcs, b.symbol ≠ .char d)
    (hu : u.isSome = inside) (horigin : σ.automaton.origin? exit = some inside)
    (hexit : Automaton.reject < exit) (h : Yields (readArc i u exit path d true .empty s) σ r σ₁) :
    ∃ b, b.symbol = .char d ∧ Opens σ s [b] σ₁ fun a => LeadsOn a inside b ∧
      ShapedBeside inside read visits σ s σ₁ exit [b.target] a := by
  obtain ⟨tr, hrewrites, hcloses⟩ := rewrites_readArc hσ hs hd h
  refine ⟨⟨.char d, exit, tr⟩, rfl, hrewrites.grows, hrewrites.units_eq, hrewrites.view_self,
    fun ha => ⟨⟨ha.origin_eq (hrewrites.origin_eq horigin), hexit, ?_⟩,
      .rewrites_right .direct hrewrites⟩⟩
  rw [isSome_of_closes hcloses, hu, Symbol.char?, Option.isSome_some, Bool.and_true]

/-- An arc with longer segments behind it leads to a state with the arcs that go on. -/
theorem shaped_readArc_inner {path : Text} {d : Char} {isMember : Bool} {below : Forest} {r : Unit}
    (hwf : below.WellFormed) (hσ : σ.automaton.Tidy) (hs : s < σ.automaton.size)
    (hd : ∀ b ∈ (σ.view s).arcs, b.symbol ≠ .char d) (hbelow : below.isEmpty = false)
    (hu : u.isSome = inside) (hlt : Automaton.reject < σ.automaton.size)
    (horigin : σ.automaton.origin? exit = some inside) (hexit : Automaton.reject < exit)
    (ih : ∀ {σ' σ'' : Assembly} {next : StateId} {r : Unit}, Grows σ s σ' → Blank σ' next →
      Yields (readForest i u exit (path ++ [d]) below next) σ' r σ'' →
      ∃ new, Opens σ' next new σ''
        (ShapedForest i u inside read visits exit (path ++ [d]) below σ' next σ'' new))
    (h : Yields (readArc i u exit path d isMember below s) σ r σ₁) :
    ∃ b, b.symbol = .char d ∧ Opens σ s [b] σ₁ fun a => LeadsOn a inside b ∧
      ShapedBeside inside read visits σ s σ₁ exit [b.target] a := by
  obtain ⟨next, σ₂, σ₃, inner, default, henters, hread, hinner, hleave, -⟩ :=
    enters_readArc hσ hs hd hbelow (fun hs h => opens_readForest hwf hs.tidy hs.lt_size
      (by simp [hs.view_eq]) h) h
  obtain ⟨inner', hshaped⟩ := ih henters.rewrites.grows henters.blank_next hread
  obtain rfl := hinner.new_unique hshaped
  have hopens := henters.opens hs hshaped hleave
  refine ⟨⟨.char d, next, u.map TargetUnit.null⟩, rfl, hopens.grows, hopens.units_eq,
    hopens.view_self, fun {a} ha => ?_⟩
  obtain ⟨hforest, hview, hkeeps⟩ := hopens.laid ha
  have hleads : LeadsOn a inside (silent exit) :=
    leadsOn_silent (ha.origin_eq (hopens.grows.origin_eq horigin)) hexit
  have hnext : Shaped inside read visits σ₂ next σ₁ exit a :=
    (hforest.beside.rewrites_right hleave).shaped (hforest.shapely hwf hleads hview)
      fun hstop ht _ => hforest.settles hview hstop ht
  have hnew := hleave.origin_eq (hinner.grows.origin_eq henters.origin)
  refine ⟨⟨ha.origin_eq (hu ▸ hnew), henters.next_eq ▸ hlt, ?_⟩, hnext.beside henters.rewrites⟩
  rw [Option.isSome_map, hu, Symbol.char?, Option.isSome_some, Bool.and_true]

theorem shaped_readArc {path : Text} {d : Char} {isMember : Bool} {below : Forest} {r : Unit}
    (hmember : below.isEmpty = true → isMember = true) (hwf : below.WellFormed)
    (hσ : σ.automaton.Tidy) (hs : s < σ.automaton.size)
    (hd : ∀ b ∈ (σ.view s).arcs, b.symbol ≠ .char d) (hu : u.isSome = inside)
    (hlt : Automaton.reject < σ.automaton.size) (horigin : σ.automaton.origin? exit = some inside)
    (hexit : Automaton.reject < exit)
    (ih : ∀ {σ' σ'' : Assembly} {next : StateId} {r : Unit}, Grows σ s σ' → Blank σ' next →
      Yields (readForest i u exit (path ++ [d]) below next) σ' r σ'' →
      ∃ new, Opens σ' next new σ''
        (ShapedForest i u inside read visits exit (path ++ [d]) below σ' next σ'' new))
    (h : Yields (readArc i u exit path d isMember below s) σ r σ₁) :
    ∃ b, b.symbol = .char d ∧ Opens σ s [b] σ₁ fun a => LeadsOn a inside b ∧
      ShapedBeside inside read visits σ s σ₁ exit [b.target] a := by
  cases hbelow : below.isEmpty with
  | false => exact shaped_readArc_inner hwf hσ hs hd hbelow hu hlt horigin hexit ih h
  | true =>
    rw [hmember hbelow, Forest.eq_empty_of_isEmpty hbelow] at h
    exact shaped_readArc_leaf hσ hs hd hu horigin hexit h

theorem shaped_readForest (hu : u.isSome = inside) (hexit : Automaton.reject < exit) :
    ∀ {forest : Forest} {path : Text} {s : StateId} {σ σ₁ : Assembly} {r : Unit},
    forest.WellFormed → σ.automaton.Tidy → s < σ.automaton.size →
    (∀ b ∈ (σ.view s).arcs, ∀ d ∈ forest.firstChars, b.symbol ≠ .char d) →
    Automaton.reject < σ.automaton.size → σ.automaton.origin? exit = some inside →
    Yields (readForest i u exit path forest s) σ r σ₁ →
    ∃ new, Opens σ s new σ₁
      (ShapedForest i u inside read visits exit path forest σ s σ₁ new)
  | .empty, path, s, σ, σ₁, r, _, hσ, hs, _, _, _, h => by
    obtain ⟨-, rfl⟩ := yields_pure.mp h
    exact ⟨[], .refl hσ s, rfl, by rw [List.append_nil], fun _ => ⟨rfl, nofun, .refl⟩⟩
  | .branch d isMember below beside, path, s, σ, σ₁, r, hwf, hσ, hs, hfresh, hlt, horigin, h => by
    obtain ⟨new', hbranched⟩ := opens_readForest hwf hσ hs hfresh h
    obtain ⟨hmember, hbefore, hwfBelow, hwfBeside⟩ := hwf
    rw [readForest_branch] at h
    obtain ⟨_, σ₂, harc, hrest⟩ := yields_bind.mp h
    have hd : ∀ b ∈ (σ.view s).arcs, b.symbol ≠ .char d :=
      fun b hb => hfresh b hb d (List.mem_cons_self ..)
    obtain ⟨b, hb, harc⟩ := shaped_readArc hmember hwfBelow hσ hs hd hu hlt horigin hexit
      (fun hgrows hs h => shaped_readForest hu hexit hwfBelow hs.tidy hs.lt_size
        (by simp [hs.view_eq]) (hgrows.lt_size hlt) (hgrows.origin_eq horigin) h) harc
    obtain ⟨new, hnew⟩ := shaped_readForest hu hexit hwfBeside harc.grows.tidy
      (harc.grows.lt_size hs) (harc.fresh hb hbefore hfresh) (harc.grows.lt_size hlt)
      (harc.grows.origin_eq horigin) hrest
    have hall := harc.trans hs hnew
    -- what is known of the layout is about the same arcs
    obtain rfl := hbranched.new_unique hall
    refine ⟨[b] ++ new, hall.grows, hall.units_eq, hall.view_self, fun {a} ha => ?_⟩
    obtain ⟨⟨hlead, hbeside⟩, hforest⟩ := hall.laid ha
    refine ⟨hbranched.laid ha, ?_, ?_⟩
    · exact List.forall_mem_append.mpr ⟨List.forall_mem_singleton.mpr hlead, hforest.leads⟩
    · rw [List.map_append]
      exact hbeside.trans hforest.beside

theorem shaped_readSet (hs : Blank σ s) (hlt : Automaton.reject < σ.automaton.size)
    (h : Yields (readSet i e m s) σ t σ₁) :
    Lays σ s σ₁ t (Shaped m.isSome read visits σ s σ₁ t) := by
  obtain ⟨trie, u, σ₂, htry, hread⟩ := trying_readSet hs.tidy h
  have hs₂ := htry.quiet.blank hs
  have hexit : Automaton.reject < t := Nat.lt_of_lt_of_le hlt htry.exit_new
  obtain ⟨new, hnew⟩ : ∃ new, Opens σ₂ s new σ₁
      (ShapedForest i u m.isSome read visits t [] trie.forest σ₂ s σ₁ new) :=
    shaped_readForest htry.isSome_unit hexit htry.wellFormed hs₂.tidy hs₂.lt_size
      (by simp [hs₂.view_eq]) (htry.quiet.lt_size hlt) htry.origin hread
  refine (htry.lays hs hnew).mono fun a ⟨hforest, hview, hkeeps⟩ => ?_
  have hleads : LeadsOn a m.isSome (silent t) :=
    leadsOn_silent (hkeeps.origin_eq htry.origin) hexit
  have hview : a.view s =
      if false then { arcs := new ++ [silent t], default := none } else { arcs := new } := hview
  exact (hforest.beside.quiet_left htry.quiet).shaped (hforest.shapely htry.wellFormed hleads hview)
    fun hstop ht _ => hforest.settles hview hstop ht

/-! ## What becomes of visits -/

/-- What the automaton makes of a visit. From the state of a choice its branches are come to, and
the symbols that it forbids are forbidden; what is built at a placeholder belongs to the target. -/
structure Met (i : Inventory) (target : Except RuleError FirstSet)
    (read : StateId → FirstSet → Assemble StateId) (a : Automaton) (v : Visit) : Prop where
  choice {branches : List (List Element)} : v.element = .disjunction branches →
    ∃ (forks : List StateId) (first : FirstSet), (∀ f ∈ forks, Automaton.reject < f) ∧
      FirstSet.ofBranches i target branches = .ok first ∧
      a.view v.state = { arcs :=
        (forks.map silent ++ (rejected first v.follow).map reject).foldl Arc.addTo [] }
  place {t x : StateId} {σ₁ : Assembly} {e : Edge} : v.element = .placeholder →
    Yields (read v.state v.follow) v.assembly t σ₁ → e ∉ v.assembly.automaton.edgesOf x →
    e ∈ σ₁.automaton.edgesOf x → e ∈ a.edgesOf x ∧
      (e.target = Automaton.reject ∨ a.origin? e.target = some true)

/-- What is true of the automaton after something has been assembled. -/
structure Stands (c : Setting) (inside : Bool) (read : StateId → FirstSet → Assemble StateId)
    (visits : List Visit) (σ : Assembly) (s : StateId) (σ₁ : Assembly) (t : StateId)
    (a : Automaton) : Prop where
  shaped : Shaped inside read visits σ s σ₁ t a
  met : ∀ v ∈ visits, Met c.inventory c.first read a v

/-- The same when the state `s` has got silent arcs to the states `forks`. -/
structure StandsBeside (c : Setting) (inside : Bool) (read : StateId → FirstSet → Assemble StateId)
    (visits : List Visit) (σ : Assembly) (s : StateId) (σ₁ : Assembly) (t : StateId)
    (forks : List StateId) (a : Automaton) : Prop where
  leads : ∀ f ∈ forks, LeadsOn a inside (silent f)
  beside : ShapedBeside inside read visits σ s σ₁ t forks a
  met : ∀ v ∈ visits, Met c.inventory c.first read a v

theorem Stands.trans {mid : StateId} {here rest : List Visit}
    (h : Stands c inside read here σ s σ₁ mid a) (h' : Stands c inside read rest σ₁ mid σ₂ t a) :
    Stands c inside read (here ++ rest) σ s σ₂ t a where
  shaped := (h.shaped.mono (List.subset_append_left ..)).trans
    (h'.shaped.mono (List.subset_append_right ..))
  met := List.forall_mem_append.mpr ⟨h.met, h'.met⟩

theorem StandsBeside.trans {forks forks' : List StateId} {here rest : List Visit}
    (h : StandsBeside c inside read here σ s σ₁ t forks a)
    (h' : StandsBeside c inside read rest σ₁ s σ₂ t forks' a) :
    StandsBeside c inside read (here ++ rest) σ s σ₂ t (forks ++ forks') a where
  leads := List.forall_mem_append.mpr ⟨h.leads, h'.leads⟩
  beside := (h.beside.mono (List.subset_append_left ..)).trans
    (h'.beside.mono (List.subset_append_right ..))
  met := List.forall_mem_append.mpr ⟨h.met, h'.met⟩

/-- Something ends in the state `last`, which passes on to `join`. -/
theorem shaped_passes {r : Unit} (hlast : Blank σ₁ last)
    (hsilent : Yields (addSilent last join) σ₁ r σ₂)
    (hview : a.view last = { arcs := [silent join] })
    (hlead : LeadsOn a inside (silent join)) (h : Shaped inside read visits σ s σ₁ last a) :
    Shaped inside read visits σ s σ₂ join a :=
  h.trans (shaped_rewrites (rewrites_addSilent_blank hlast hsilent)
    (shapely_single hview hlead) fun _ ht =>
      Automaton.settles_of_arcs hview (List.forall_mem_singleton.mpr ht))

variable {P : Language Symbol} {target : Visit.Plan}

/-- A sequence can be assembled with its visits. -/
def StandsSequence (c : Setting) (P : Language Symbol) (target : Visit.Plan) (inside : Bool)
    (read : StateId → FirstSet → Assemble StateId) (ms : List Emission) (follow : FirstSet)
    (es : List Element) : Prop :=
  ∀ {σ σ₁ : Assembly} {s t : StateId} {before after : Language Symbol},
    Emission.Fits inside ms es → Blank σ s → Automaton.reject < σ.automaton.size →
    Yields (readSequence c ms follow es s) σ t σ₁ →
    ∃ visits, VisitsAll c P target ms follow before after es s σ visits ∧
      Lays σ s σ₁ t (Stands c inside read visits σ s σ₁ t)

theorem stands_optional {body : List Element} {before after : Language Symbol}
    (hbody : ∀ ms, StandsSequence c P target inside read ms follow body) (hm : m.isSome = inside)
    (hs : Blank σ s) (hlt : Automaton.reject < σ.automaton.size)
    (h : Yields (readElement c m follow (.optional body) s) σ t σ₁) :
    ∃ visits, Visits c P target m follow before after (.optional body) s σ visits ∧
      Lays σ s σ₁ t (Stands c inside read visits σ s σ₁ t) := by
  obtain ⟨inner, ms, last, σ₂, _, hfork, hms, hsequence, hlast⟩ := yields_optional h
  have hforks := forks_forkGroup hs hfork
  obtain ⟨visits, hvisits, hbody⟩ := hbody ms (hm ▸ Emission.fits_emissions hms)
    hforks.blank_inner (hforks.rewrites.lt_size hlt) hsequence
  refine ⟨visits, ⟨t, inner, σ₂, ms, hfork, hms, hvisits⟩,
    (hforks.lays hs hbody hlast).1.keeping.mono fun a ⟨⟨hview, hstands, hlastview⟩, ha⟩ => ?_⟩
  have hgrows : Grows σ₂ inner σ₁ := (hbody.encloses hlast).1.grows
  have hexit : LeadsOn a inside (silent t) :=
    leadsOn_silent (hm ▸ ha.origin_eq (hgrows.origin_eq hforks.origin_exit))
      (Nat.lt_of_lt_of_le hlt hforks.exit_new)
  have hinner : LeadsOn a inside (silent inner) :=
    leadsOn_silent (hm ▸ ha.origin_eq (hgrows.origin_eq hforks.origin_inner))
      (Nat.lt_of_lt_of_le hlt hforks.inner_new)
  have hbeside := (shaped_passes hbody.blank hlast hlastview hexit hstands.shaped).beside
    hforks.rewrites
  have hforked : a.view s = { arcs :=
      ([inner, t].map silent ++ ([] : List Symbol).map reject).foldl Arc.addTo [] } := by
    rw [hview]
    simp [Arc.addTo, hforks.ne.symm]
  have hheads : ∀ f ∈ [inner, t], LeadsOn a inside (silent f) := by simp [hinner, hexit]
  exact ⟨hbeside.shaped (shapely_forks hforked hheads (absurd rfl)) fun hstop ht hinner =>
    settles_of_forks hforked hstop (List.forall_mem_cons.mpr
      ⟨hinner inner (List.mem_singleton.mpr rfl), List.forall_mem_singleton.mpr ht⟩), hstands.met⟩

section Branches

variable {before after : Language Symbol}

theorem stands_readBranch {branch : List Element}
    (hbody : ∀ ms, StandsSequence c P target inside read ms follow branch)
    (hm : m.isSome = inside) (hσ : σ.automaton.Tidy) (hs : s < σ.automaton.size)
    (hbare : ∀ b ∈ (σ.view s).arcs, b.transform = none)
    (hlt : Automaton.reject < σ.automaton.size)
    (horigin : σ.automaton.origin? join = some inside) (hjoin : Automaton.reject < join)
    (h : Yields (readBranch c m follow join s branch) σ () σ₁) :
    ∃ fork visits, VisitsAmong c P target m follow before after join [branch] s σ visits ∧
      Grows σ s σ₁ ∧
      σ₁.view s = { σ.view s with arcs := Arc.addTo (σ.view s).arcs (silent fork) } ∧
      ∀ {a}, Keeps a σ₁ (New σ σ₁) →
        StandsBeside c inside read visits σ s σ₁ join [fork] a := by
  cases branch with
  | nil =>
    have hsilent := rewrites_addEdge hσ hs (fun b hb _ => hbare b hb) h
    refine ⟨join, [], ⟨σ₁, h, rfl⟩, hsilent.grows, hsilent.view_self, fun {a} ha => ⟨?_, ?_, nofun⟩⟩
    · exact List.forall_mem_singleton.mpr
        (leadsOn_silent (ha.origin_eq (hsilent.origin_eq horigin)) hjoin)
    · exact .rewrites_right .direct hsilent
  | cons e es =>
    obtain ⟨fork, ms, last, σ₂, _, hbegin, hms, hsequence, hlast⟩ := yields_readBranch_cons h
    have hbranch := branches_beginBranch hσ hs hbare hbegin
    obtain ⟨visits, hvisits, hbody⟩ := hbody ms (hm ▸ Emission.fits_emissions hms)
      hbranch.blank_fork (hbranch.rewrites.lt_size hlt) hsequence
    obtain ⟨hgrows, -, hview, hlaid⟩ := hbranch.lays hs hbody hlast
    refine ⟨fork, visits, ⟨fork, σ₂, ms, visits, σ₁, [], hbegin, hms, hvisits, h, rfl, by simp⟩,
      hgrows, hview, fun {a} ha => ?_⟩
    obtain ⟨hstands, hlastview⟩ := hlaid ha
    have hfork : LeadsOn a inside (silent fork) := by
      have hgrows' : Grows σ₂ fork σ₁ := (hbody.encloses hlast).1.grows
      exact leadsOn_silent (hm ▸ ha.origin_eq (hgrows'.origin_eq hbranch.origin_fork))
        (Nat.lt_of_lt_of_le hlt hbranch.fork_new)
    have hexit : LeadsOn a inside (silent join) :=
      leadsOn_silent (ha.origin_eq (hgrows.origin_eq horigin)) hjoin
    exact ⟨List.forall_mem_singleton.mpr hfork,
      (shaped_passes hbody.blank hlast hlastview hexit hstands.shaped).beside hbranch.rewrites,
      hstands.met⟩

theorem stands_readBranches {branches : List (List Element)} {first : FirstSet}
    (hbody : ∀ branch ∈ branches, ∀ ms, StandsSequence c P target inside read ms follow branch)
    (hm : m.isSome = inside) (hσ : σ.automaton.Tidy) (hs : s < σ.automaton.size)
    (hbare : ∀ b ∈ (σ.view s).arcs, b.transform = none)
    (hlt : Automaton.reject < σ.automaton.size)
    (horigin : σ.automaton.origin? join = some inside) (hjoin : Automaton.reject < join)
    (h : Yields (readBranches c m follow join branches s) σ first σ₁) :
    ∃ forks visits, VisitsAmong c P target m follow before after join branches s σ visits ∧
      Grows σ s σ₁ ∧ σ₁.view s = { σ.view s with
        arcs := (forks.map silent).foldl Arc.addTo (σ.view s).arcs } ∧
      ∀ {a}, Keeps a σ₁ (New σ σ₁) → StandsBeside c inside read visits σ s σ₁ join forks a := by
  induction branches generalizing σ first with
  | nil =>
    rw [readBranches] at h
    obtain ⟨rfl, rfl⟩ := yields_pure.mp h
    exact ⟨[], [], rfl, .refl hσ s, rfl, fun _ => ⟨nofun, .refl, nofun⟩⟩
  | cons branch branches ih =>
    obtain ⟨head, rest, _, -, hbranch, hrest, rfl⟩ := yields_readBranches_cons h
    obtain ⟨fork, here, hhere, hgrows, hview, hstands⟩ := stands_readBranch
      (hbody _ (List.mem_cons_self ..)) hm hσ hs hbare hlt horigin hjoin hbranch
    obtain ⟨forks, visits, hvisits, hgrows', hview', hstands'⟩ := ih
      (fun branch hb => hbody branch (List.mem_cons_of_mem _ hb)) hgrows.tidy
      (hgrows.lt_size hs) (by rw [hview]; exact bare_addTo hbare) (hgrows.lt_size hlt)
      (hgrows.origin_eq horigin) hrest
    refine ⟨fork :: forks, here ++ visits, visitsAmong_cons hhere hbranch hvisits,
      hgrows.trans hgrows' (.inl rfl), ?_, fun ha =>
        (hstands (ha.back hgrows' fun x hx => ?_)).trans (hstands' (ha.mono fun x hx => ?_))⟩
    · rw [hview', hview]
      rfl
    · exact ⟨⟨hx.1, hgrows'.lt_size hx.2⟩, hx.2, Nat.ne_of_gt (Nat.lt_of_lt_of_le hs hx.1)⟩
    · exact ⟨Nat.le_trans hgrows.size_le hx.1, hx.2⟩

theorem stands_disjunction {T : Automaton → Plan} {branches : List (List Element)}
    (hlays : ∀ branch ∈ branches, ∀ ms, LaysSequence c T ms follow branch)
    (hbody : ∀ branch ∈ branches, ∀ ms, StandsSequence c P target inside read ms follow branch)
    (hm : m.isSome = inside) (hs : Blank σ s) (hlt : Automaton.reject < σ.automaton.size)
    (h : Yields (readElement c m follow (.disjunction branches) s) σ t σ₁) :
    ∃ visits, Visits c P target m follow before after (.disjunction branches) s σ visits ∧
      Lays σ s σ₁ t (Stands c inside read visits σ s σ₁ t) := by
  obtain ⟨σ₂, σ₃, first, forks, hchooses, hlays⟩ := lays_choice hlays hs h
  obtain ⟨hquiet, hid, hblank, -⟩ := quiet_addState hs.tidy hchooses.join
  have hs₂ := hquiet.blank hs
  have hjoin : Automaton.reject < t := hid ▸ hlt
  obtain ⟨forks', within, hwithin, hgrows, hview, hstands⟩ := stands_readBranches hbody hm
    hs₂.tidy hs₂.lt_size (by simp [hs₂.view_eq]) (hquiet.lt_size hlt)
    (hm ▸ origin_addState hchooses.join) hjoin hchooses.read
  let v : Visit := ⟨.disjunction branches, s, σ, follow, before, after, P⟩
  refine ⟨v :: within, ⟨t, σ₂, within, hchooses.join, hwithin, rfl⟩,
    hlays.mono fun a ⟨hkeeps, _, hviews⟩ => ?_⟩
  have hstands := hstands hkeeps
  -- both lists of forks describe the arcs that `s` had before anything was forbidden
  have hforked : a.view s = { arcs :=
      (forks'.map silent ++ (rejected first follow).map reject).foldl Arc.addTo [] } := by
    have heq := congrArg View.arcs (hview.symm.trans hchooses.view_forked)
    rw [hs₂.view_eq] at heq
    rw [hviews, List.foldl_append, List.foldl_append]
    exact congrArg (fun arcs => View.mk (List.foldl Arc.addTo arcs _) _ _) heq.symm
  have hbeside : ShapedBeside inside read (v :: within) σ s σ₃ t forks' a :=
    (hstands.beside.mono (List.subset_cons_self ..)).quiet_left hquiet
  refine ⟨(hbeside.rewrites_right hchooses.rejects).shaped (shapely_forks hforked hstands.leads
    fun _ => ⟨v, List.mem_cons_self .., ⟨branches, rfl⟩, rfl⟩) fun hstop _ hheads =>
      settles_of_forks hforked hstop hheads, List.forall_mem_cons.mpr ⟨⟨?_, nofun⟩, hstands.met⟩⟩
  rintro _ ⟨⟩
  exact ⟨forks, first, fun f hf => Nat.lt_of_lt_of_le hlt (hchooses.fork_new f hf),
    hchooses.first_eq, hviews⟩

end Branches

/-! ## All elements -/

/-- What is assembled for the placeholder, with its visits. -/
def StandsTarget (c : Setting) (P : Language Symbol) (target : Visit.Plan) (inside : Bool)
    (read : StateId → FirstSet → Assemble StateId) : Prop :=
  ∀ {σ σ₁ : Assembly} {s t : StateId} {follow : FirstSet} {before after : Language Symbol},
    inside = false → Blank σ s → Automaton.reject < σ.automaton.size →
    Yields (c.readTarget s follow) σ t σ₁ → ∃ within, target follow before after s σ within ∧
      Lays σ s σ₁ t (Stands c inside read
        (⟨.placeholder, s, σ, follow, before, after, P⟩ :: within) σ s σ₁ t)

theorem Lays.stands_nil (hm : m.isSome = inside)
    (h : Lays σ s σ₁ t (Shaped m.isSome read [] σ s σ₁ t)) :
    Lays σ s σ₁ t (Stands c inside read [] σ s σ₁ t) :=
  h.mono fun _ ha => ⟨hm ▸ ha, nofun⟩

theorem shaped_boundary {edge : WordEdge} (hs : Blank σ s)
    (hlt : Automaton.reject < σ.automaton.size)
    (h : Yields (readElement c m follow (.boundary edge) s) σ t σ₁) :
    Lays σ s σ₁ t (Shaped m.isSome read visits σ s σ₁ t) := by
  obtain ⟨_, hstate, harc⟩ := yields_boundary h
  exact shaped_arc hs hlt hstate harc (by cases edge <;> simp [WordEdge.symbol, Symbol.char?])

section Elements

variable {T : Automaton → Plan}

mutual

theorem stands_readElement (hlays : LaysTarget c T) (hT : StandsTarget c P target inside read) :
    ∀ (e : Element) {m : Option Emission} {follow : FirstSet} {before after : Language Symbol}
      {σ σ₁ : Assembly} {s t : StateId}, m.isSome = inside → Blank σ s →
      Automaton.reject < σ.automaton.size → Yields (readElement c m follow e s) σ t σ₁ →
      ∃ visits, Visits c P target m follow before after e s σ visits ∧
        Lays σ s σ₁ t (Stands c inside read visits σ s σ₁ t)
  | .utterance text, _, _, _, _, _, _, _, _, hm, hs, hlt, h => by
    rw [readElement] at h
    exact ⟨[], rfl, (shaped_readText hs hlt h).stands_nil hm⟩
  | .set ref, _, _, _, _, _, _, _, _, hm, hs, hlt, h => by
    rw [readElement] at h
    exact ⟨[], rfl, (shaped_readSet hs hlt h).stands_nil hm⟩
  | .compound refs, _, _, _, _, _, _, _, _, hm, hs, hlt, h => by
    rw [readElement] at h
    exact ⟨[], rfl, (shaped_readSet hs hlt h).stands_nil hm⟩
  | .optional body, _, _, _, _, _, _, _, _, hm, hs, hlt, h =>
    stands_optional (fun _ => stands_readSequence hlays hT body) hm hs hlt h
  | .disjunction branches, _, _, _, _, _, _, _, _, hm, hs, hlt, h =>
    stands_disjunction (lays_branches hlays branches) (stands_branches hlays hT branches) hm hs
      hlt h
  | .boundary edge, _, _, _, _, _, _, _, _, hm, hs, hlt, h =>
    ⟨[], rfl, (shaped_boundary hs hlt h).stands_nil hm⟩
  | .placeholder, m, follow, before, after, σ, σ₁, s, t, hm, hs, hlt, h => by
    rw [readElement] at h
    cases m with
    | some m =>
      obtain ⟨rfl, rfl⟩ := yields_pure.mp h
      exact ⟨[], rfl, .refl hs fun _ => ⟨.of_quiet (.refl hs.tidy), nofun⟩⟩
    | none =>
      obtain ⟨within, hwithin, hlays⟩ := hT hm.symm hs hlt h
      exact ⟨_, ⟨within, hwithin, rfl⟩, hlays⟩

theorem stands_readSequence (hlays : LaysTarget c T) (hT : StandsTarget c P target inside read) :
    ∀ (es : List Element) {ms : List Emission} {follow : FirstSet},
      StandsSequence c P target inside read ms follow es
  | [], ms, follow, σ, σ₁, s, t, before, after, _, hs, _, h => by
    rw [readSequence] at h
    obtain ⟨rfl, rfl⟩ := yields_pure.mp h
    exact ⟨[], rfl, .refl hs fun _ => ⟨.of_quiet (.refl hs.tidy), nofun⟩⟩
  | e :: es, ms, follow, σ, σ₁, s, t, before, after, hms, hs, hlt, h => by
    obtain ⟨f, next, σ₂, hf, helement, hrest⟩ := yields_readSequence_cons h
    obtain ⟨here, hhere, hfirst⟩ := stands_readElement hlays hT e hms.head hs hlt helement
    obtain ⟨rest, hvisits, hrest⟩ := stands_readSequence hlays hT es hms.tail hfirst.blank
      (hfirst.grows.lt_size hlt) hrest
    exact ⟨here ++ rest, ⟨f, next, σ₂, here, rest, hf, hhere, helement, hvisits, rfl⟩,
      (hfirst.trans hrest).mono fun a ha => ha.1.trans ha.2⟩

theorem stands_branches (hlays : LaysTarget c T) (hT : StandsTarget c P target inside read) :
    ∀ (branches : List (List Element)) {follow : FirstSet}, ∀ branch ∈ branches, ∀ ms,
      StandsSequence c P target inside read ms follow branch
  | [], _, _, h, _ => nomatch h
  | branch :: branches, follow, other, h, ms => by
    rcases List.mem_cons.mp h with h | h
    · exact h ▸ stands_readSequence hlays hT branch
    · exact stands_branches hlays hT branches other h ms

end

end Elements

end SoundChange.Assembly
