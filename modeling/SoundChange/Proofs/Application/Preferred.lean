import SoundChange.Proofs.Application.Exploring

/-!
# The path taken is the preferred way

What is laid out for an element explores the ways of that element (`Layout.explores_of_laid`). For a
set this is `Layout.takes_of_branched`: at each place of a trie the arcs to longer segments come
before the one that ends a segment there. For a choice it takes that what is forbidden where it
begins is nothing that could be found, which is what `Layout.mem_findings_of_forks` says.

The results are `Rule.WellFormed.preferred?_isSome_iff`, the spans with a preferred way are those
that the rule matches, and `Rule.WellFormed.exists_acceptingPath`, the path that the search finds
through such a span writes and records what the preferred way says.
-/

namespace SoundChange

namespace Layout

open Automaton (Explores exists_arc_of_finds attached_of_mem takes_of_only findingsAlong_silent
  mem_letter_mul ne_reject_of_finds firstFinding_append firstFinding_eq_none)
open Assembly (TargetUnit Setting symbol_of_branched)
open Output (Emits Underway)

variable {a : Automaton} {i : Inventory} {s t exit : StateId} {n n' : Nat} {e : Element}
  {m : Option Emission} {u : Option TargetUnit} {v w : List Symbol} {rest : List Step}

/-! ## Texts -/

theorem finds_of_spelled {tr : Option (TransformId × TransformId)} :
    ∀ {text : Text} {s : StateId} {w : List Symbol}, Spelled a tr text s t → a.Finds s w →
      ∃ v, w = Symbol.ofText text ++ v ∧ a.Finds t v
  | [], s, w, h, hw => by
    obtain rfl : t = s := h
    exact ⟨w, rfl, hw⟩
  | c :: cs, s, w, h, hw => by
    obtain ⟨next, hview, hrest⟩ := h
    obtain ⟨b, hb, hw⟩ := exists_arc_of_finds hview hw
    obtain rfl := List.mem_singleton.mp hb
    rcases mem_letter_mul.mp hw with ⟨hc, -⟩ | ⟨-, x, hx, rfl⟩
    · cases hc
    · obtain ⟨v, rfl, hv⟩ := finds_of_spelled hrest hx
      exact ⟨v, rfl, hv⟩

section Units

variable (hreject : a.view Automaton.reject = {}) (hu : Begins a e m n n' u)
include hreject hu

/-- A path goes on through the rest of a text and completes it. -/
theorem takes_of_spelled {tr : Option (TransformId × TransformId)}
    (htr : tr.map Prod.fst = u.map TargetUnit.null) (hrest : a.Takes t v rest) :
    ∀ {cs : Text} {c : Char} {read : Text} {before : List Step} {s : StateId},
      Spelled a tr (c :: cs) s t → Closes a i u (read ++ c :: cs) (tr.map Prod.snd) →
      Underway a u n before read →
      ∃ p, a.Takes s (Symbol.ofText (c :: cs) ++ v) (p ++ rest) ∧
        Emits a n n' (before ++ p) (rendered i e m (read ++ c :: cs))
  | [], c, read, before, s, h, hcloses, hunder => by
    obtain ⟨next, hview, rfl⟩ := h
    have hattached := attached_of_mem hview (List.mem_singleton.mpr rfl)
    exact ⟨[_], takes_of_only hreject hview hrest, hunder.close hu hcloses hattached⟩
  | d :: cs, c, read, before, s, h, hcloses, hunder => by
    obtain ⟨next, hview, hspelled⟩ := h
    have hattached := attached_of_mem hview (List.mem_singleton.mpr rfl)
    obtain ⟨p, hp, hemits⟩ := takes_of_spelled htr hrest hspelled
      (by rwa [List.append_assoc]) (hunder.next hu (hattached.trans htr))
    rw [List.append_assoc, List.append_assoc] at hemits
    exact ⟨_ :: p, takes_of_only hreject hview hp, hemits⟩

end Units

theorem explores_of_laidText (hreject : a.view Automaton.reject = {}) {text : Text}
    (hne : text ≠ []) (h : LaidText a i text m s t n n') :
    a.Explores (.text i (.utterance text) m text) s t n n' := by
  obtain ⟨u, tr, hu, htr, hcloses, hspelled⟩ := h.exists_unit
  obtain ⟨c, cs, rfl⟩ := List.exists_cons_of_ne_nil hne
  refine ⟨le_of_begins hu, fun {w} hw => ?_, fun {w x rest} hx hrest => ?_⟩
  · obtain ⟨v, rfl, hv⟩ := finds_of_spelled hspelled hw
    rw [Ways.text_append]
    exact ⟨_, List.mem_singleton.mpr rfl, hv⟩
  · by_cases hprefix : Symbol.ofText (c :: cs) <+: w
    · obtain ⟨v, rfl⟩ := hprefix
      rw [Ways.text_append] at hx
      obtain rfl := Automaton.firstFinding_singleton hx
      exact takes_of_spelled hreject hu htr hrest hspelled hcloses Output.underway_nil
    · rw [Ways.text, if_neg hprefix] at hx
      cases hx

theorem explores_of_edge (hreject : a.view Automaton.reject = {}) {edge : WordEdge}
    (hview : a.view s = { arcs := [⟨edge.symbol, t, none⟩] }) :
    a.Explores (.symbol edge.symbol) s t n n := by
  have hedge : edge.symbol ≠ .lambda := by cases edge <;> nofun
  refine ⟨Nat.le_refl n, fun {w} hw => ?_, fun {w x rest} hx hrest => ?_⟩
  · obtain ⟨b, hb, hw⟩ := exists_arc_of_finds hview hw
    obtain rfl := List.mem_singleton.mp hb
    rcases mem_letter_mul.mp hw with ⟨hc, -⟩ | ⟨-, v, hv, rfl⟩
    · exact absurd hc hedge
    · rw [Ways.symbol, if_pos (List.head?_cons ..)]
      exact ⟨_, List.mem_singleton.mpr rfl, hv⟩
  · rw [Ways.symbol] at hx
    split at hx
    · rename_i hhead
      obtain ⟨v, rfl⟩ := List.head?_eq_some_iff.mp hhead
      obtain rfl := Automaton.firstFinding_singleton hx
      have htakes := takes_of_only hreject hview hrest
      rw [Arc.reads, if_neg hedge] at htakes
      exact ⟨[_], htakes, Output.emits_kept hedge (attached_of_mem hview
        (List.mem_singleton.mpr rfl))⟩
    · cases hx

/-! ## Sets -/

theorem exists_cons_of_findingsAlong {b : Arc} {c : Char} (hb : b.symbol = .char c)
    (hw : w ∈ a.findingsAlong b) : ∃ v, w = .char c :: v ∧ a.Finds b.target v := by
  rcases mem_letter_mul.mp hw with ⟨hc, -⟩ | ⟨-, v, hv, rfl⟩
  · rw [hb] at hc
    cases hc
  · exact ⟨v, by rw [hb], hv⟩

/-- What is found along an arc of a forest begins with a segment of it. -/
theorem exists_way_of_branched : ∀ {forest : Forest} {path : Text} {arcs : List Arc} {b : Arc}
    {w : List Symbol}, forest.WellFormed → Branched a i u exit path forest arcs → b ∈ arcs →
    w ∈ a.findingsAlong b → ∃ x ∈ forest.ways i e m path w, a.Finds exit x.2
  | .empty, path, arcs, b, w, _, h, hb, _ => by
    obtain rfl : arcs = [] := h
    cases hb
  | .branch c isMember below beside, path, arcs, b, w, hwf, h, hb, hw => by
    obtain ⟨target, tr, others, rfl, hreaches, hothers⟩ := h
    obtain ⟨hmember, hbefore, hwfBelow, hwfBeside⟩ := hwf
    rcases List.mem_cons.mp hb with rfl | hb
    · obtain ⟨v, rfl, hv⟩ := exists_cons_of_findingsAlong rfl hw
      rw [Forest.ways_cons_self]
      have hhere (hmember : isMember = true) (hv : a.Finds exit v) :
          ∃ x ∈ below.ways i e m (path ++ [c]) v ++
            (if isMember then [(rendered i e m (path ++ [c]), v)] else []), a.Finds exit x.2 := by
        rw [if_pos hmember]
        exact ⟨_, List.mem_append_right _ (List.mem_singleton.mpr rfl), hv⟩
      cases hbelow : below.isEmpty with
      | true =>
        rw [Reaches, hbelow, if_pos rfl] at hreaches
        exact hhere (hmember hbelow) (hreaches.1 ▸ hv)
      | false =>
        rw [Reaches, hbelow, if_neg Bool.false_ne_true] at hreaches
        obtain ⟨-, inner, default, hinner, hview⟩ := hreaches
        have hlonger {b : Arc} (hb : b ∈ inner) (hv : v ∈ a.findingsAlong b) :
            ∃ x ∈ below.ways i e m (path ++ [c]) v ++
              (if isMember then [(rendered i e m (path ++ [c]), v)] else []),
              a.Finds exit x.2 := by
          obtain ⟨x, hx, hfinds⟩ := exists_way_of_branched hwfBelow hinner hb hv
          exact ⟨x, List.mem_append_left _ hx, hfinds⟩
        cases isMember with
        | true =>
          obtain ⟨b, hb, hv⟩ := exists_arc_of_finds hview.2 hv
          rcases List.mem_append.mp hb with hb | hb
          · exact hlonger hb hv
          · obtain rfl := List.mem_singleton.mp hb
            rw [findingsAlong_silent] at hv
            exact hhere rfl hv
        | false =>
          obtain ⟨b, hb, hv⟩ := exists_arc_of_finds hview hv
          exact hlonger hb hv
    · obtain ⟨d, hd, hsymbol⟩ := symbol_of_branched hothers hb
      obtain ⟨v, rfl, -⟩ := exists_cons_of_findingsAlong hsymbol hw
      rw [Forest.ways_of_head? fun h => ?_]
      · exact exists_way_of_branched hwfBeside hothers hb hw
      · cases h
        exact absurd (hbefore c hd) (by simp [Ranked.irrefl])

/-- A path that goes on behind the first segment of a forest is taken through the arcs of the
forest, and completes that segment. -/
theorem takes_of_branched (hreject : a.view Automaton.reject = {}) (hu : Begins a e m n n' u) :
    ∀ {forest : Forest} {path : Text} {arcs : List Arc} {before : List Step} {s : StateId}
      {w : List Symbol} {x : List Piece × List Symbol}, forest.WellFormed →
    Branched a i u exit path forest arcs → (∀ b ∈ arcs, a.attached? s b.symbol = b.transform) →
    Underway a u n before path → a.firstFinding exit (forest.ways i e m path w) = some x →
    a.Takes exit x.2 rest →
    ∃ earlier b later v p, arcs = earlier ++ b :: later ∧ (∀ d ∈ earlier, w ∉ a.findingsAlong d) ∧
      w = b.reads ++ v ∧ a.Takes b.target v (p ++ rest) ∧
      Emits a n n' (before ++ ⟨s, b.symbol⟩ :: p) x.1
  | .empty, path, arcs, before, s, w, x, _, h, _, _, hx, _ => by cases hx
  | .branch c isMember below beside, path, arcs, before, s, w, x, hwf, h, hattached, hunder, hx,
      hrest => by
    obtain ⟨target, tr, others, rfl, hreaches, hothers⟩ := h
    obtain ⟨hmember, -, hwfBelow, hwfBeside⟩ := hwf
    obtain ⟨hhere, hthere⟩ := List.forall_mem_cons.mp hattached
    by_cases hw : w.head? = some (.char c)
    · obtain ⟨v, rfl⟩ := List.head?_eq_some_iff.mp hw
      rw [Forest.ways_cons_self, firstFinding_append, Option.or_eq_some_iff] at hx
      suffices htarget : ∃ p, a.Takes target v (p ++ rest) ∧
          Emits a n n' (before ++ ⟨s, .char c⟩ :: p) x.1 by
        obtain ⟨p, hp, hemits⟩ := htarget
        exact ⟨[], _, others, v, p, rfl, List.forall_mem_nil _, rfl, hp, hemits⟩
      cases hbelow : below.isEmpty with
      | true =>
        rw [Reaches, hbelow, if_pos rfl] at hreaches
        obtain ⟨rfl, hcloses⟩ := hreaches
        cases below with
        | empty =>
          rw [if_pos (hmember rfl)] at hx
          obtain rfl :=
            Automaton.firstFinding_singleton (hx.resolve_left (Option.some_ne_none x).symm).2
          exact ⟨[], hrest, hunder.close hu hcloses hhere⟩
        | branch => cases hbelow
      | false =>
        rw [Reaches, hbelow, if_neg Bool.false_ne_true] at hreaches
        obtain ⟨rfl, inner, default, hinner, hview⟩ := hreaches
        have hnext := hunder.next hu hhere
        have hopen {after : List Arc} {default : Option TransformId}
            (hview : a.view target = { arcs := inner ++ after, default })
            (hafter : ∀ b ∈ after, b = silent exit) : a.Open target := by
          refine open_of_branched hreject (ne_reject_of_finds hreject hrest.finds) hinner
            fun b hb => ?_
          rw [show a.arcs target = inner ++ after from congrArg View.arcs hview] at hb
          exact (List.mem_append.mp hb).imp_right (hafter b)
        have hlonger {after : List Arc} {default : Option TransformId}
            (hview : a.view target = { arcs := inner ++ after, default })
            (hafter : ∀ b ∈ after, b = silent exit)
            (hx : a.firstFinding exit (below.ways i e m (path ++ [c]) v) = some x) :
            ∃ p, a.Takes target v (p ++ rest) ∧
              Emits a n n' (before ++ ⟨s, .char c⟩ :: p) x.1 := by
          obtain ⟨earlier, b, later, v', p, rfl, hearlier, hreads, htakes, hemits⟩ :=
            takes_of_branched hreject hu hwfBelow hinner
              (fun b hb => attached_of_mem hview (List.mem_append_left _ hb)) hnext hx hrest
          rw [List.append_assoc] at hemits
          have hsplit : a.view target = { arcs := earlier ++ b :: (later ++ after), default } := by
            rw [hview, List.append_assoc, List.cons_append]
          exact ⟨_ :: p, (hopen hview hafter).takes hreject hsplit hearlier hreads htakes, hemits⟩
        cases isMember with
        | true =>
          obtain ⟨hcloses, hview⟩ := hview
          have hsilent : ∀ b ∈ [silent exit], b = silent exit := fun b => List.mem_singleton.mp
          rcases hx with hx | ⟨hnone, hx⟩
          · exact hlonger hview hsilent hx
          · obtain rfl := Automaton.firstFinding_singleton hx
            have hemits := hnext.pass hu hcloses (congrArg View.default hview)
            rw [List.append_assoc] at hemits
            refine ⟨[_], (hopen hview hsilent).takes hreject hview (fun d hd hv => ?_) rfl hrest,
              hemits⟩
            obtain ⟨y, hy, hfinds⟩ := exists_way_of_branched hwfBelow hinner hd hv
            exact firstFinding_eq_none.mp hnone y hy hfinds
        | false =>
          have hall : a.view target = { arcs := inner ++ [] } := by
            rw [List.append_nil]
            exact hview
          exact hlonger hall (List.forall_mem_nil _)
            (hx.resolve_right fun h => (Option.some_ne_none x).symm h.2)
    · rw [Forest.ways_of_head? hw] at hx
      obtain ⟨earlier, b, later, v, p, rfl, hearlier, hreads, htakes, hemits⟩ :=
        takes_of_branched hreject hu hwfBeside hothers hthere hunder hx hrest
      refine ⟨_ :: earlier, b, later, v, p, rfl, List.forall_mem_cons.mpr ⟨fun h => ?_, hearlier⟩,
        hreads, htakes, hemits⟩
      obtain ⟨v, rfl, -⟩ := exists_cons_of_findingsAlong rfl h
      exact hw rfl

theorem explores_of_laidSet (hreject : a.view Automaton.reject = {})
    (h : LaidSet a i e m s t n n') : a.Explores (.segments i e m) s t n n' := by
  obtain ⟨trie, u, arcs, htrie, hu, hbranched, hview⟩ := h
  obtain ⟨members, -, rfl⟩ := Inventory.trie_eq_ok.mp htrie
  have hwf := Trie.wellFormed_ofSet members
  have hways (w : List Symbol) :
      Ways.segments i e m w = (Trie.ofSet members).forest.ways i e m [] w := by
    rw [Ways.segments, htrie]
  refine ⟨le_of_begins hu, fun hw => ?_, fun hx hrest => ?_⟩
  · obtain ⟨b, hb, hw⟩ := exists_arc_of_finds hview hw
    rw [hways]
    exact exists_way_of_branched hwf hbranched hb hw
  · rw [hways] at hx
    have harcs : a.arcs s = arcs := congrArg View.arcs hview
    have hopen := open_of_branched hreject (ne_reject_of_finds hreject hrest.finds) hbranched
      fun b hb => .inl (harcs ▸ hb)
    obtain ⟨earlier, b, later, v, p, rfl, hearlier, hreads, htakes, hemits⟩ :=
      takes_of_branched hreject hu hwf hbranched (fun b => attached_of_mem hview)
        Output.underway_nil hx hrest
    exact ⟨_ :: p, hopen.takes hreject hview hearlier hreads htakes, hemits⟩

/-! ## Elements -/

section Elements

variable {P : Language Symbol} {F : Ways} {c : Setting} {target : Plan}

/-- What stands for the placeholder explores some ways. -/
def ExploresTarget (a : Automaton) (F : Ways) (target : Plan) : Prop :=
  ∀ follow s t n n', target follow s t n n' → a.Explores F s t n n'

/-- What is found from a state silently ahead is found. -/
theorem findings_le_of_silent (hreject : a.view Automaton.reject = {}) {forks : List StateId}
    (hview : a.view s = { arcs := forks.map silent }) (ht : t ∈ forks) :
    a.findings t ≤ a.findings s := by
  have harcs : a.arcs s = forks.map silent := congrArg View.arcs hview
  have hopen : a.Open s := by
    intro b hb hsymbol
    obtain ⟨f, -, rfl⟩ := List.mem_map.mp (harcs ▸ hb)
    exact absurd rfl hsymbol
  intro w hw
  refine Automaton.finds_of_arc (b := silent t) hreject (harcs ▸ List.mem_map_of_mem ht)
    (hopen.not_bars (Automaton.lambda_notMem_of_finds hw)) ?_
  rwa [findingsAlong_silent]

mutual

/-- What is laid out from `s` to `t` explores the ways of the element that it is laid out for. -/
theorem explores_of_laid (hreject : a.view Automaton.reject = {})
    (hT : ∀ {follow s t n n'}, target follow s t n n' → a.futures s = P * a.futures t) :
    ∀ (e : Element) {m : Option Emission} {follow : FirstSet} {s t : StateId} {n n' : Nat},
      e.Every (FirstSet.Suits c.first P) → m = none ∨ P = 1 →
      Fits (ExploresTarget a F target) m (e.Every Element.InTarget) →
      Laid c a target m follow e s t n n' → a.Explores (e.ways c.inventory F m) s t n n'
  | .utterance text, m, follow, s, t, n, n', hs, _, _, h => by
    rw [Laid] at h
    rw [Element.ways]
    exact explores_of_laidText hreject (fun hnil => hs.1 (by rw [hnil])) h
  | .set ref, m, follow, s, t, n, n', _, _, _, h => by
    rw [Laid] at h
    rw [Element.ways]
    exact explores_of_laidSet hreject h
  | .compound refs, m, follow, s, t, n, n', _, _, _, h => by
    rw [Laid] at h
    rw [Element.ways]
    exact explores_of_laidSet hreject h
  | .optional body, m, follow, s, t, n, n', hs, hm, hfits, h => by
    rw [Laid] at h
    obtain ⟨inner, last, ms, hview, hms, hbody, hlast⟩ := h
    have hnil := nil_of_emissions hms hm
    obtain ⟨rfl, hall⟩ := fitsAll_within (hfits.imp And.right) hms
    have htaken := (explores_of_laidAll hreject hT body hs.2 hnil hall hbody).silent hreject hlast
    have hleft : a.Explores .nothing t t n n' :=
      Explores.nothing.mono (Nat.le_refl n) htaken.le
    have hforks : a.view s = { arcs := [inner, t].map silent } := hview
    rw [Element.ways, ← Ways.orElse_none .nothing]
    exact .of_forks hreject hforks Automaton.forks_silent htaken.le
      (.cons htaken (.cons hleft .nil)) fun d hd => findings_le_of_silent hreject hforks hd
  | .disjunction branches, m, follow, s, t, n, n', hs, hm, hfits, h => by
    rw [Laid] at h
    obtain ⟨forks, first, hbranches, hfirst, hview⟩ := h
    have hfutures := futures_of_laidBranches hreject hT branches hm hbranches
    obtain ⟨hle, hany⟩ :=
      explores_of_laidBranches hreject hT branches hs.2 hm (hfits.imp And.right) hbranches
    rw [Element.ways]
    refine .of_forks hreject hview Automaton.forks_foldl_addTo hle hany fun f hf w hw => ?_
    -- what is found from a fork begins with a word of the choice, so it is not forbidden
    have hsum : w ∈ (forks.map a.findings).sum :=
      Automaton.mem_sum.mpr ⟨_, List.mem_map_of_mem hf, hw⟩
    have hfuture : w ∈ (forks.map a.futures).sum :=
      Automaton.mem_sum.mpr ⟨_, List.mem_map_of_mem hf, Automaton.findings_le_futures hw⟩
    rw [hfutures] at hfuture
    obtain ⟨x, hx, y, -, rfl⟩ := Language.mem_mul.mp hfuture
    exact mem_findings_of_forks hreject (FirstSet.covers_branches hs.2 hfirst) hx hsum hview
  | .boundary edge, m, follow, s, t, n, n', _, _, _, h => by
    rw [Laid] at h
    obtain ⟨rfl, hview⟩ := h
    rw [Element.ways]
    exact explores_of_edge hreject hview
  | .placeholder, m, follow, s, t, n, n', _, _, hfits, h => by
    rw [Laid] at h
    cases m with
    | none => exact hfits _ _ _ _ _ h
    | some m => exact absurd rfl hfits.2.self.ne_placeholder

theorem explores_of_laidAll (hreject : a.view Automaton.reject = {})
    (hT : ∀ {follow s t n n'}, target follow s t n n' → a.futures s = P * a.futures t) :
    ∀ (es : List Element) {ms : List Emission} {follow : FirstSet} {s t : StateId} {n n' : Nat},
      Element.EveryOf (FirstSet.Suits c.first P) es → ms = [] ∨ P = 1 →
      FitsAll (ExploresTarget a F target) ms es → LaidAll c a target ms follow es s t n n' →
      a.Explores (Element.waysAll c.inventory F ms es) s t n n'
  | [], ms, follow, s, t, n, n', _, _, _, h => by
    rw [LaidAll] at h
    obtain ⟨rfl, rfl⟩ := h
    rw [Element.waysAll]
    exact .nothing
  | e :: es, ms, follow, s, t, n, n', hs, hms, hfits, h => by
    rw [LaidAll] at h
    obtain ⟨after, mid, k, -, he, hes⟩ := h
    have hhead : ms.head? = none ∨ P = 1 := hms.imp_left fun h => by rw [h]; rfl
    have htail : ms.tail = [] ∨ P = 1 := hms.imp_left fun h => by rw [h]; rfl
    rw [Element.waysAll]
    exact (explores_of_laid hreject hT e hs.1 hhead hfits.head he).append
      (explores_of_laidAll hreject hT es hs.2 htail hfits.tail hes)

theorem explores_of_laidBranches (hreject : a.view Automaton.reject = {})
    (hT : ∀ {follow s t n n'}, target follow s t n n' → a.futures s = P * a.futures t) :
    ∀ (branches : List (List Element)) {m : Option Emission} {follow : FirstSet} {join : StateId}
      {forks : List StateId} {n n' : Nat}, Element.EveryAmong (FirstSet.Suits c.first P) branches →
      m = none ∨ P = 1 →
      Fits (ExploresTarget a F target) m (Element.EveryAmong Element.InTarget branches) →
      LaidBranches c a target m follow join branches forks n n' →
      n ≤ n' ∧ a.ExploresAny join n n' (Element.waysAny c.inventory F m branches) forks
  | [], m, follow, join, forks, n, n', _, _, _, h => by
    rw [LaidBranches] at h
    obtain ⟨rfl, rfl⟩ := h
    rw [Element.waysAny]
    exact ⟨Nat.le_refl _, .nil⟩
  | [] :: branches, m, follow, join, forks, n, n', hs, hm, hfits, h => by
    rw [LaidBranches] at h
    obtain ⟨rest, rfl, hrest⟩ := h
    obtain ⟨hle, hany⟩ :=
      explores_of_laidBranches hreject hT branches hs.2 hm (hfits.imp And.right) hrest
    rw [Element.waysAny, Element.waysAll]
    exact ⟨hle, .cons (Explores.nothing.mono (Nat.le_refl n) hle) hany⟩
  | (e :: es) :: branches, m, follow, join, forks, n, n', hs, hm, hfits, h => by
    rw [LaidBranches] at h
    obtain ⟨fork, rest, last, ms, k, rfl, hms, hbody, hlast, hrest⟩ := h
    have hnil := nil_of_emissions hms hm
    obtain ⟨rfl, hall⟩ := fitsAll_within (hfits.imp And.left) hms
    have hfork :=
      (explores_of_laidAll hreject hT (e :: es) hs.1 hnil hall hbody).silent hreject hlast
    obtain ⟨hle, hany⟩ :=
      explores_of_laidBranches hreject hT branches hs.2 hm (hfits.imp And.right) hrest
    rw [Element.waysAny]
    exact ⟨hfork.le.trans hle,
      .cons (hfork.mono (Nat.le_refl n) hle) (hany.mono hfork.le (Nat.le_refl n'))⟩

end

end Elements

end Layout

namespace Rule

variable {i : Inventory} {rule : Rule} {a : Automaton} {strip : Bool} {span : List Symbol}
  {ps : List Piece}

namespace WellFormed

/-- The target of a rule explores its ways where it is laid out. -/
theorem exploresTarget (hrule : rule.WellFormed) (hreject : a.view Automaton.reject = {}) :
    Layout.ExploresTarget a (rule.targetWays i) (Layout.LaidTarget i rule a) := by
  rintro follow s t n n' ⟨ms, halign, hlaid⟩
  obtain rfl := Emission.align_eq_some halign
  refine Layout.explores_of_laidAll hreject (fun h => by rw [h.1, one_mul]) rule.target
    (hrule.suits_target _ _) (.inr rfl) (.inr ⟨Emission.length_shares, ?_, hrule.target⟩) hlaid
  exact fun m hm => Emission.plain_of_mem_shares hrule.result hm

/-- An automaton explores the ways of its rule, up to a final state without arcs. -/
theorem exists_explores (hrule : rule.WellFormed) (h : rule.automaton i strip = .ok a) :
    ∃ last n, a.view last = { isFinal := true } ∧
      a.Explores (rule.ways i strip) Automaton.start last 0 n := by
  obtain ⟨-, hreject, last, n, hlast, hlaid⟩ := Assembly.layout_of_automaton h
  exact ⟨last, n, hlast, Layout.explores_of_laidAll hreject (futures_of_laidTarget hreject) _
    (hrule.suits_environment strip) (.inl rfl) (.inl ⟨rfl, hrule.exploresTarget hreject⟩) hlaid⟩

/-- Through a span that has a preferred way, the search finds a path that does what this way
says. -/
theorem exists_acceptingPath (hrule : rule.WellFormed) (h : rule.automaton i strip = .ok a)
    (hps : rule.preferred? i strip span = some ps) :
    ∃ path, a.acceptingPath span = some path ∧
      Output.ofPath a path = ps.foldl Output.add {} := by
  obtain ⟨last, n, hlast, hexplores⟩ := hrule.exists_explores h
  obtain ⟨⟨_, rest⟩, hx, rfl⟩ := Option.map_eq_some_iff.mp hps
  have hempty := List.find?_some hx
  obtain rfl : rest = [] := List.isEmpty_iff.mp hempty
  rw [← Automaton.firstFinding_of_final hlast] at hx
  obtain ⟨path, htakes, hemits⟩ := hexplores.takes hx (.stop (congrArg View.isFinal hlast))
  rw [List.append_nil] at htakes
  exact ⟨path, Automaton.acceptingPath_of_takes htakes, (hemits {} Output.ready_empty).2⟩

/-- The spans that have a preferred way are those that the rule matches. -/
theorem preferred?_isSome_iff (hrule : rule.WellFormed) (h : rule.automaton i strip = .ok a) :
    (rule.preferred? i strip span).isSome = true ↔ span ∈ rule.language i strip := by
  constructor
  · intro hsome
    obtain ⟨ps, hps⟩ := Option.isSome_iff_exists.mp hsome
    obtain ⟨path, hpath, -⟩ := hrule.exists_acceptingPath h hps
    obtain ⟨s, hrun, hfinal⟩ := Automaton.run_of_acceptingPath hpath
    rw [← futures_start h]
    exact ⟨s, ⟨path, hrun⟩, hfinal⟩
  · intro hspan
    obtain ⟨last, n, hlast, hexplores⟩ := hrule.exists_explores h
    obtain ⟨x, hx, hfinds⟩ := hexplores.finds (hrule.language_le_findings h hspan)
    rw [preferred?, Option.isSome_map, List.find?_isSome]
    exact ⟨x, hx, List.isEmpty_iff.mpr ((Automaton.finds_iff_of_final hlast).mp hfinds)⟩

end WellFormed

end Rule

end SoundChange
