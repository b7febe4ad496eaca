import SoundChange.Proofs.Application.Effect
import SoundChange.Proofs.Application.Agreement

/-!
# What a path through a rule writes

`Layout.Traces a D s t n n'`: every way from `s` to a final state comes through `t`, and up to there
it reads the symbols of some pieces of which `D` holds and adds these pieces to the output. Traces
follow one another (`Traces.append`), so what is laid out is traced construct by construct
(`Layout.traces_of_laid`); that a text or a set is traced is `split_of_spelled` and
`split_of_branched`, where the output is in the middle of a unit.

`Rule.output_of_acceptingPath` is the result: the path that the search finds through a span writes
and records just what some derivation of the span does.
-/

namespace SoundChange

/-- What is read along an arc. -/
def Arc.reads (b : Arc) : List Symbol := if b.symbol = .lambda then [] else [b.symbol]

/-- A run to a final state begins with an arc of a state that is not final. -/
theorem Automaton.Run.exists_arc {a : Automaton} {s f : StateId} {steps : List Step}
    {w : List Symbol} {arcs : List Arc} {default : Option TransformId} (h : a.Run s steps w f)
    (hfinal : a.isFinal f = true) (hview : a.view s = { arcs, default }) :
    ∃ b ∈ arcs, ∃ rest v, steps = ⟨s, b.symbol⟩ :: rest ∧ w = b.reads ++ v ∧
      a.Run b.target rest v f ∧ a.attached? s b.symbol = b.transform := by
  obtain rfl : a.arcs s = arcs := congrArg View.arcs hview
  cases h with
  | stay => exact absurd ((congrArg View.isFinal hview).symm.trans hfinal) nofun
  | silent he hrun =>
    obtain ⟨b, hb, hsymbol, rfl⟩ := mem_edgesOf_iff.mp he
    exact ⟨b, hb, _, _, by rw [hsymbol], by rw [Arc.reads, if_pos hsymbol]; rfl, hrun,
      (mem_arcs.mp hb).2⟩
  | read hc he hrun =>
    obtain ⟨b, hb, rfl, rfl⟩ := mem_edgesOf_iff.mp he
    exact ⟨b, hb, _, _, rfl, by rw [Arc.reads, if_neg hc]; rfl, hrun, (mem_arcs.mp hb).2⟩

/-- A run does not leave a state without arcs. -/
theorem Automaton.Run.eq_nil {a : Automaton} {s f : StateId} {steps : List Step}
    {w : List Symbol} (h : a.Run s steps w f) (harcs : a.arcs s = []) : steps = [] ∧ w = [] := by
  cases h with
  | stay => exact ⟨rfl, rfl⟩
  | silent he =>
    obtain ⟨b, hb, -⟩ := mem_edgesOf_iff.mp he
    rw [harcs] at hb
    cases hb
  | read _ he =>
    obtain ⟨b, hb, -⟩ := mem_edgesOf_iff.mp he
    rw [harcs] at hb
    cases hb

namespace Layout

open Assembly (TargetUnit Setting)
open Output (Emits Underway rendered_of_closes)

variable {a : Automaton} {i : Inventory} {rule : Rule} {s t r exit f : StateId}
  {n n' k : Nat} {D E : List Piece → Prop} {e : Element} {m : Option Emission}
  {u : Option TargetUnit}

/-- Every way from one state to a final one comes through another one, and adds pieces of which `D`
holds until then. -/
structure Traces (a : Automaton) (D : List Piece → Prop) (s t : StateId) (n n' : Nat) : Prop where
  le : n ≤ n'
  split {steps : List Step} {w : List Symbol} {f : StateId} : a.Run s steps w f →
    a.isFinal f = true → ∃ p q v ps, steps = p ++ q ∧ w = ps.flatMap Piece.symbols ++ v ∧
      a.Run t q v f ∧ D ps ∧ Emits a n n' p ps

namespace Traces

theorem nil (h : D []) : Traces a D s s n n where
  le := Nat.le_refl n
  split {steps w _} hrun _ :=
    ⟨[], steps, w, [], rfl, rfl, hrun, h, Output.emits_nil (Nat.le_refl n)⟩

theorem imp (h : Traces a D s t n n') (hDE : ∀ ps, D ps → E ps) : Traces a E s t n n' where
  le := h.le
  split hrun hfinal := by
    obtain ⟨p, q, v, ps, hp, hw, hq, hD, hemits⟩ := h.split hrun hfinal
    exact ⟨p, q, v, ps, hp, hw, hq, hDE ps hD, hemits⟩

theorem mono {l l' : Nat} (h : Traces a D s t n n') (hl : l ≤ n) (hl' : n' ≤ l') :
    Traces a D s t l l' where
  le := hl.trans (h.le.trans hl')
  split hrun hfinal := by
    obtain ⟨p, q, v, ps, hp, hw, hq, hD, hemits⟩ := h.split hrun hfinal
    exact ⟨p, q, v, ps, hp, hw, hq, hD, hemits.mono hl hl'⟩

theorem append (h : Traces a D s t n k) (h' : Traces a E t r k n') :
    Traces a (fun ps => ∃ x y, D x ∧ E y ∧ ps = x ++ y) s r n n' where
  le := h.le.trans h'.le
  split hrun hfinal := by
    obtain ⟨p, q, v, ps, rfl, rfl, hq, hD, hemits⟩ := h.split hrun hfinal
    obtain ⟨p', q', v', ps', rfl, rfl, hq', hE, hemits'⟩ := h'.split hq hfinal
    exact ⟨p ++ p', q', v', ps ++ ps', (List.append_assoc ..).symm,
      by rw [List.flatMap_append, List.append_assoc], hq', ⟨ps, ps', hD, hE, rfl⟩,
      hemits.append hemits'⟩

/-- Where all arcs are silent or lead to the rejecting state, a way goes on along a silent one. -/
theorem of_forks {arcs : List Arc} (hreject : a.view Automaton.reject = {})
    (hview : a.view s = { arcs }) (hle : n ≤ n')
    (h : ∀ b ∈ arcs, b.symbol = .lambda ∧ Traces a D b.target t n n' ∨
      b.target = Automaton.reject) : Traces a D s t n n' where
  le := hle
  split hrun hfinal := by
    obtain ⟨b, hb, rest, v, rfl, rfl, hrest, -⟩ := hrun.exists_arc hfinal hview
    rcases h b hb with ⟨hsymbol, htraces⟩ | htarget
    · obtain ⟨p, q, v', ps, rfl, rfl, hq, hD, hemits⟩ := htraces.split hrest hfinal
      have hdefault : a.default? s = none := congrArg View.default hview
      refine ⟨⟨s, b.symbol⟩ :: p, q, v', ps, rfl, ?_, hq, hD, ?_⟩
      · rw [Arc.reads, if_pos hsymbol]
        rfl
      · rw [hsymbol]
        exact (Output.emits_silent hdefault).append hemits
    · rw [htarget] at hrest
      obtain ⟨b, hb, -⟩ := hrest.exists_arc hfinal hreject
      cases hb

/-- A silent arc adds nothing. -/
theorem silent (h : Traces a D s t n n') (hreject : a.view Automaton.reject = {})
    (hview : a.view t = { arcs := [silent r] }) : Traces a D s r n n' := by
  have hpass : Traces a (· = []) t r n' n' := by
    refine of_forks hreject hview (Nat.le_refl _) fun b hb => .inl ?_
    obtain rfl := List.mem_singleton.mp hb
    exact ⟨rfl, nil rfl⟩
  refine (h.append hpass).imp ?_
  rintro ps ⟨x, y, hx, rfl, rfl⟩
  rwa [List.append_nil]

end Traces

/-! ## Texts and sets -/

section Units

variable (hu : Begins a e m n n' u) (hm : ∀ x, m = some x → x.Plain)
include hu hm

/-- A way through the rest of a text completes it. -/
theorem split_of_spelled {tr : Option (TransformId × TransformId)}
    (htr : tr.map Prod.fst = u.map TargetUnit.null) :
    ∀ {cs : Text} {c : Char} {read : Text} {before steps : List Step} {s : StateId}
      {w : List Symbol}, Spelled a tr (c :: cs) s t →
      Closes a i u (read ++ c :: cs) (tr.map Prod.snd) → Underway a u n before read →
      a.Run s steps w f → a.isFinal f = true →
      ∃ p q v ps, steps = p ++ q ∧ w = Symbol.ofText (c :: cs) ++ v ∧ a.Run t q v f ∧
        Rendered i e (read ++ c :: cs) m ps ∧ Emits a n n' (before ++ p) ps
  | [], c, read, before, steps, s, w, h, hcloses, hunder, hrun, hfinal => by
    obtain ⟨next, hview, rfl⟩ := h
    obtain ⟨b, hb, rest, v, rfl, rfl, hrest, hattached⟩ := hrun.exists_arc hfinal hview
    obtain rfl := List.mem_singleton.mp hb
    exact ⟨[_], rest, v, _, rfl, rfl, hrest, rendered_of_closes hu hm hcloses,
      hunder.close hu hcloses hattached⟩
  | d :: cs, c, read, before, steps, s, w, h, hcloses, hunder, hrun, hfinal => by
    obtain ⟨next, hview, hrest⟩ := h
    obtain ⟨b, hb, rest, v, rfl, rfl, hrun, hattached⟩ := hrun.exists_arc hfinal hview
    obtain rfl := List.mem_singleton.mp hb
    have hnext := hunder.next hu (hattached.trans htr)
    obtain ⟨p, q, v', ps, rfl, rfl, hq, hps, hemits⟩ := split_of_spelled htr hrest
      (by rwa [List.append_assoc]) hnext hrun hfinal
    rw [List.append_assoc] at hps hemits
    exact ⟨_ :: p, q, v', ps, rfl, rfl, hq, hps, hemits⟩

/-- A way along an arc of a forest completes a segment that the forest holds. -/
theorem split_of_branched : ∀ {forest : Forest} {path : Text} {arcs : List Arc} {b : Arc}
    {before rest : List Step} {s : StateId} {v : List Symbol}, forest.WellFormed →
    Branched a i u exit path forest arcs → b ∈ arcs → a.attached? s b.symbol = b.transform →
    Underway a u n before path → a.Run b.target rest v f → a.isFinal f = true →
    ∃ x p q y ps, forest.Has x ∧ ⟨s, b.symbol⟩ :: rest = p ++ q ∧
      b.reads ++ v = Symbol.ofText x ++ y ∧ a.Run exit q y f ∧ Rendered i e (path ++ x) m ps ∧
      Emits a n n' (before ++ p) ps
  | .empty, path, arcs, b, before, rest, s, v, _, h, hb, _, _, _, _ => by
    obtain rfl : arcs = [] := h
    cases hb
  | .branch c isMember below beside, path, arcs, b, before, rest, s, v, hwf, h, hb, hattached,
      hunder, hrun, hfinal => by
    obtain ⟨target, tr, others, rfl, hreaches, hothers⟩ := h
    obtain ⟨hmember, -, hwfBelow, hwfBeside⟩ := hwf
    rcases List.mem_cons.mp hb with rfl | hb
    · cases hbelow : below.isEmpty with
      | true =>
        rw [Reaches, hbelow, if_pos rfl] at hreaches
        obtain ⟨rfl, hcloses⟩ := hreaches
        cases below with
        | empty =>
          exact ⟨[c], [_], rest, v, _, .inl ⟨[], rfl, .inl ⟨rfl, hmember rfl⟩⟩, rfl, rfl, hrun,
            rendered_of_closes hu hm hcloses, hunder.close hu hcloses hattached⟩
        | branch => cases hbelow
      | false =>
        rw [Reaches, hbelow, if_neg Bool.false_ne_true] at hreaches
        obtain ⟨rfl, inner, default, hinner, hview⟩ := hreaches
        have hnext := hunder.next hu hattached
        have hlonger {b : Arc} {rest : List Step} {v : List Symbol} (hb : b ∈ inner)
            (hattached : a.attached? target b.symbol = b.transform)
            (hrun : a.Run b.target rest v f) :
            ∃ x p q y ps, (Forest.branch c isMember below beside).Has x ∧
              ⟨s, .char c⟩ :: ⟨target, b.symbol⟩ :: rest = p ++ q ∧
              .char c :: (b.reads ++ v) = Symbol.ofText x ++ y ∧ a.Run exit q y f ∧
              Rendered i e (path ++ x) m ps ∧ Emits a n n' (before ++ p) ps := by
          obtain ⟨x, p, q, y, ps, hx, hp, hy, hq, hps, hemits⟩ :=
            split_of_branched hwfBelow hinner hb hattached hnext hrun hfinal
          rw [List.append_assoc] at hps hemits
          exact ⟨c :: x, _ :: p, q, y, ps, .inl ⟨x, rfl, .inr hx⟩, congrArg (_ :: ·) hp,
            congrArg (_ :: ·) hy, hq, hps, hemits⟩
        cases isMember with
        | true =>
          obtain ⟨hcloses, hview⟩ := hview
          obtain ⟨b, hb, rest, v, rfl, rfl, hrun, hattached⟩ := hrun.exists_arc hfinal hview
          rcases List.mem_append.mp hb with hb | hb
          · exact hlonger hb hattached hrun
          · obtain rfl := List.mem_singleton.mp hb
            have hdefault : a.default? target = default := congrArg View.default hview
            have hemits := hnext.pass hu hcloses hdefault
            rw [List.append_assoc] at hemits
            exact ⟨[c], [_, _], rest, v, _, .inl ⟨[], rfl, .inl ⟨rfl, rfl⟩⟩, rfl, rfl, hrun,
              rendered_of_closes hu hm hcloses, hemits⟩
        | false =>
          obtain ⟨b, hb, rest, v, rfl, rfl, hrun, hattached⟩ := hrun.exists_arc hfinal hview
          exact hlonger hb hattached hrun
    · obtain ⟨x, p, q, y, ps, hx, hp, hy, hq, hps, hemits⟩ :=
        split_of_branched hwfBeside hothers hb hattached hunder hrun hfinal
      exact ⟨x, p, q, y, ps, .inr hx, hp, hy, hq, hps, hemits⟩

end Units

theorem le_of_begins (h : Begins a e m n n' u) : n ≤ n' := by
  cases m with
  | none => exact h.2.ge
  | some m =>
    obtain ⟨v, -, -, rfl⟩ := h
    exact Nat.le_succ n

/-- A text is a unit, or stands outside the target. -/
theorem LaidText.exists_unit {text : Text} (h : LaidText a i text m s t n n') :
    ∃ u tr, Begins a (.utterance text) m n n' u ∧ tr.map Prod.fst = u.map TargetUnit.null ∧
      Closes a i u text (tr.map Prod.snd) ∧ Spelled a tr text s t := by
  cases m with
  | none => exact ⟨none, none, ⟨rfl, h.1⟩, rfl, rfl, h.2⟩
  | some m =>
    obtain ⟨rfl, u, last, hu, hends, hspelled⟩ := h
    exact ⟨some u, some (u.null, last), ⟨u, rfl, hu, rfl⟩, rfl, ⟨last, rfl, hends⟩, hspelled⟩

theorem traces_of_laidText {text : Text} (hm : ∀ x, m = some x → x.Plain ∧ text ≠ [])
    (h : LaidText a i text m s t n n') :
    Traces a (Rendered i (.utterance text) text m) s t n n' := by
  obtain ⟨u, tr, hu, htr, hcloses, hspelled⟩ := h.exists_unit
  cases text with
  | nil =>
    cases m with
    | none =>
      obtain ⟨-, rfl⟩ := hu
      obtain rfl : t = s := hspelled
      exact .nil .kept
    | some m => exact absurd rfl (hm m rfl).2
  | cons c cs =>
    refine ⟨le_of_begins hu, fun hrun hfinal => ?_⟩
    obtain ⟨p, q, v, ps, hp, hw, hq, hps, hemits⟩ := split_of_spelled hu (fun x hx => (hm x hx).1)
      htr hspelled hcloses Output.underway_nil hrun hfinal
    exact ⟨p, q, v, ps, hp, by rw [hw, hps.symbols_eq]; rfl, hq, hps, hemits⟩

theorem traces_of_laidSet (hset : e.isSet = true) (hm : ∀ x, m = some x → x.Plain)
    (h : LaidSet a i e m s t n n') : Traces a (Derives i rule m e) s t n n' := by
  obtain ⟨trie, u, arcs, htrie, hu, hbranched, hview⟩ := h
  obtain ⟨members, hmembers, rfl⟩ := Inventory.trie_eq_ok.mp htrie
  refine ⟨le_of_begins hu, fun hrun hfinal => ?_⟩
  obtain ⟨b, hb, rest, v, rfl, rfl, hrun, hattached⟩ := hrun.exists_arc hfinal hview
  obtain ⟨x, p, q, y, ps, hx, hp, hy, hq, hps, hemits⟩ := split_of_branched hu hm
    (Trie.wellFormed_ofSet members) hbranched hb hattached Output.underway_nil hrun hfinal
  obtain ⟨hx, hne⟩ := Trie.has_ofSet.mp hx
  exact ⟨p, q, y, ps, hp, by rw [hy, hps.symbols_eq]; rfl, hq,
    .segment hset hmembers hx hne hps, hemits⟩

theorem traces_of_edge {edge : WordEdge}
    (hview : a.view s = { arcs := [⟨edge.symbol, t, none⟩] }) :
    Traces a (· = [.kept edge.symbol]) s t n n := by
  have hedge : edge.symbol ≠ .lambda := by cases edge <;> nofun
  refine ⟨Nat.le_refl n, fun hrun hfinal => ?_⟩
  obtain ⟨b, hb, rest, v, rfl, rfl, hrun, hattached⟩ := hrun.exists_arc hfinal hview
  obtain rfl := List.mem_singleton.mp hb
  refine ⟨[_], rest, v, _, rfl, ?_, hrun, rfl, Output.emits_kept hedge hattached⟩
  rw [Arc.reads, if_neg hedge]
  rfl

/-! ## Elements -/

/-- Outside the target `P` must hold, and in the target `Q`, with a result that is a text or a
signed feature. -/
def Fits (P : Prop) (m : Option Emission) (Q : Prop) : Prop :=
  match m with
  | none => P
  | some m => m.Plain ∧ Q

/-- The same for a sequence, each of whose elements is replaced by something in the target. -/
def FitsAll (P : Prop) (ms : List Emission) (es : List Element) : Prop :=
  ms = [] ∧ P ∨ ms.length = es.length ∧ (∀ m ∈ ms, m.Plain) ∧
    Element.EveryOf Element.InTarget es

section Elements

variable {P Q R : Prop} {es : List Element} {ms : List Emission} {c : Setting} {target : Plan}

theorem Fits.imp (h : Fits P m Q) (hQR : Q → R) : Fits P m R := by
  cases m with
  | none => exact h
  | some m => exact h.imp_right hQR

theorem Fits.plain (h : Fits P m Q) : ∀ x, m = some x → x.Plain ∧ Q := by
  rintro x rfl
  exact h

theorem FitsAll.head (h : FitsAll P ms (e :: es)) :
    Fits P ms.head? (e.Every Element.InTarget) := by
  rcases h with ⟨rfl, hP⟩ | ⟨hlength, hplain, hall⟩
  · exact hP
  · cases ms with
    | nil => cases hlength
    | cons m ms => exact ⟨hplain m (List.mem_cons_self ..), hall.1⟩

theorem FitsAll.tail (h : FitsAll P ms (e :: es)) : FitsAll P ms.tail es := by
  rcases h with ⟨rfl, hP⟩ | ⟨hlength, hplain, hall⟩
  · exact .inl ⟨rfl, hP⟩
  · refine .inr ⟨?_, fun m hm => hplain m (List.mem_of_mem_tail hm), hall.2⟩
    rw [List.length_tail, hlength, List.length_cons, Nat.add_sub_cancel]

/-- What the elements of a group are replaced by is as for the group. -/
theorem fitsAll_within (h : Fits P m (Element.EveryOf Element.InTarget es))
    (hms : c.emissions m es = .ok ms) : ms = Emission.within m es ∧ FitsAll P ms es := by
  cases m with
  | none =>
    cases hms
    exact ⟨rfl, .inl ⟨rfl, h⟩⟩
  | some m =>
    rw [Setting.emissions] at hms
    split at hms
    · rename_i ms' halign
      cases hms
      obtain rfl := Emission.align_eq_some halign
      refine ⟨rfl, .inr ⟨Emission.length_shares, fun x hx => ?_, h.2⟩⟩
      exact Emission.plain_of_mem_shares (fun e he => h.1 e (Option.mem_toList.mp he)) hx
    · cases hms

/-- What stands for the placeholder is traced as the target of the rule. -/
def TracesTarget (a : Automaton) (i : Inventory) (rule : Rule) (target : Plan) : Prop :=
  ∀ follow s t n n', target follow s t n n' →
    Traces a (DerivesAll i rule (Emission.shares rule.result [] rule.target) rule.target) s t n n'

mutual

/-- What is laid out from `s` to `t` is traced as the element that it is laid out for. -/
theorem traces_of_laid (hreject : a.view Automaton.reject = {}) :
    ∀ (e : Element) {m : Option Emission} {follow : FirstSet} {s t : StateId} {n n' : Nat},
      Fits (TracesTarget a c.inventory rule target) m (e.Every Element.InTarget) →
      Laid c a target m follow e s t n n' → Traces a (Derives c.inventory rule m e) s t n n'
  | .utterance text, m, follow, s, t, n, n', hfits, h => by
    rw [Laid] at h
    refine (traces_of_laidText (fun x hx => ?_) h).imp fun _ => .text
    obtain ⟨hplain, hallows⟩ := hfits.plain x hx
    exact ⟨hplain, fun hnil => hallows.self.ne_nil (by rw [hnil])⟩
  | .set ref, m, follow, s, t, n, n', hfits, h => by
    rw [Laid] at h
    exact traces_of_laidSet rfl (fun x hx => (hfits.plain x hx).1) h
  | .compound refs, m, follow, s, t, n, n', hfits, h => by
    rw [Laid] at h
    exact traces_of_laidSet rfl (fun x hx => (hfits.plain x hx).1) h
  | .optional body, m, follow, s, t, n, n', hfits, h => by
    rw [Laid] at h
    obtain ⟨inner, last, ms, hview, hms, hbody, hlast⟩ := h
    obtain ⟨rfl, hall⟩ := fitsAll_within (hfits.imp And.right) hms
    have htaken := ((traces_of_laidAll hreject body hall hbody).silent hreject hlast).imp
      fun _ => Derives.taken
    refine .of_forks hreject hview htaken.le fun b hb => .inl ?_
    simp only [List.mem_cons, List.not_mem_nil, or_false] at hb
    rcases hb with rfl | rfl
    · exact ⟨rfl, htaken⟩
    · exact ⟨rfl, (Traces.nil .leftOut).mono (Nat.le_refl n) htaken.le⟩
  | .disjunction branches, m, follow, s, t, n, n', hfits, h => by
    rw [Laid] at h
    obtain ⟨forks, first, hbranches, -, hview⟩ := h
    obtain ⟨hle, htraces⟩ := traces_of_laidBranches hreject branches (hfits.imp And.right) hbranches
    refine .of_forks hreject hview hle fun b hb => ?_
    rw [Arc.mem_foldl_addTo, List.mem_append] at hb
    rcases hb with hb | hb | hb
    · cases hb
    · obtain ⟨f, hf, rfl⟩ := List.mem_map.mp hb
      refine .inl ⟨rfl, (htraces f hf).imp ?_⟩
      rintro ps ⟨branch, hbranch, hps⟩
      exact .branch hbranch hps
    · obtain ⟨d, -, rfl⟩ := List.mem_map.mp hb
      exact .inr rfl
  | .boundary edge, m, follow, s, t, n, n', hfits, h => by
    rw [Laid] at h
    obtain ⟨rfl, hview⟩ := h
    cases m with
    | none =>
      refine (traces_of_edge hview).imp ?_
      rintro ps rfl
      exact .boundary
    | some m => exact absurd hfits.2.self.not_boundary nofun
  | .placeholder, m, follow, s, t, n, n', hfits, h => by
    rw [Laid] at h
    cases m with
    | none => exact (hfits _ _ _ _ _ h).imp fun _ => .target
    | some m => exact absurd rfl hfits.2.self.ne_placeholder

theorem traces_of_laidAll (hreject : a.view Automaton.reject = {}) :
    ∀ (es : List Element) {ms : List Emission} {follow : FirstSet} {s t : StateId} {n n' : Nat},
      FitsAll (TracesTarget a c.inventory rule target) ms es →
      LaidAll c a target ms follow es s t n n' →
      Traces a (DerivesAll c.inventory rule ms es) s t n n'
  | [], ms, follow, s, t, n, n', _, h => by
    rw [LaidAll] at h
    obtain ⟨rfl, rfl⟩ := h
    exact .nil .nil
  | e :: es, ms, follow, s, t, n, n', hfits, h => by
    rw [LaidAll] at h
    obtain ⟨after, mid, k, -, he, hes⟩ := h
    refine ((traces_of_laid hreject e hfits.head he).append
      (traces_of_laidAll hreject es hfits.tail hes)).imp ?_
    rintro ps ⟨x, y, hx, hy, rfl⟩
    exact .cons hx hy

theorem traces_of_laidBranches (hreject : a.view Automaton.reject = {}) :
    ∀ (branches : List (List Element)) {m : Option Emission} {follow : FirstSet} {join : StateId}
      {forks : List StateId} {n n' : Nat},
      Fits (TracesTarget a c.inventory rule target) m
        (Element.EveryAmong Element.InTarget branches) →
      LaidBranches c a target m follow join branches forks n n' →
      n ≤ n' ∧ ∀ f ∈ forks, Traces a (fun ps => ∃ branch ∈ branches,
        DerivesAll c.inventory rule (Emission.within m branch) branch ps) f join n n'
  | [], m, follow, join, forks, n, n', _, h => by
    rw [LaidBranches] at h
    obtain ⟨rfl, rfl⟩ := h
    exact ⟨Nat.le_refl _, nofun⟩
  | [] :: branches, m, follow, join, forks, n, n', hfits, h => by
    rw [LaidBranches] at h
    obtain ⟨rest, rfl, hrest⟩ := h
    obtain ⟨hle, htraces⟩ := traces_of_laidBranches hreject branches (hfits.imp And.right) hrest
    refine ⟨hle, List.forall_mem_cons.mpr ⟨?_, fun f hf => (htraces f hf).imp ?_⟩⟩
    · exact (Traces.nil ⟨[], List.mem_cons_self .., .nil⟩).mono (Nat.le_refl n) hle
    · rintro ps ⟨branch, hbranch, hps⟩
      exact ⟨branch, List.mem_cons_of_mem _ hbranch, hps⟩
  | (e :: es) :: branches, m, follow, join, forks, n, n', hfits, h => by
    rw [LaidBranches] at h
    obtain ⟨fork, rest, last, ms, k, rfl, hms, hbody, hlast, hrest⟩ := h
    obtain ⟨rfl, hall⟩ := fitsAll_within (hfits.imp And.left) hms
    have hfork := (traces_of_laidAll hreject (e :: es) hall hbody).silent hreject hlast
    obtain ⟨hle, htraces⟩ := traces_of_laidBranches hreject branches (hfits.imp And.right) hrest
    refine ⟨hfork.le.trans hle, List.forall_mem_cons.mpr ⟨?_, fun f hf => ?_⟩⟩
    · exact (hfork.imp fun ps hps => ⟨_, List.mem_cons_self .., hps⟩).mono (Nat.le_refl n) hle
    · refine ((htraces f hf).imp ?_).mono hfork.le (Nat.le_refl n')
      rintro ps ⟨branch, hbranch, hps⟩
      exact ⟨branch, List.mem_cons_of_mem _ hbranch, hps⟩

end

end Elements

end Layout

namespace Rule

variable {i : Inventory} {rule : Rule} {a : Automaton} {strip : Bool} {t : Table}
  {options : CompileOptions} {path : List Step} {span : List Symbol}

/-- The target of a rule is traced where it is laid out. -/
theorem WellFormed.tracesTarget (hrule : rule.WellFormed) (hreject : a.view Automaton.reject = {}) :
    Layout.TracesTarget a i rule (Layout.LaidTarget i rule a) := by
  rintro follow s t n n' ⟨ms, halign, hlaid⟩
  obtain rfl := Emission.align_eq_some halign
  refine Layout.traces_of_laidAll hreject rule.target (.inr ⟨Emission.length_shares, ?_, ?_⟩) hlaid
  · exact fun m hm => Emission.plain_of_mem_shares hrule.result hm
  · exact hrule.target

/-- The output of a run from the start to a final state is made of the pieces of a derivation. -/
theorem WellFormed.ofPath_of_run (hrule : rule.WellFormed) (h : rule.automaton i strip = .ok a)
    {f : StateId} (hrun : a.Run Automaton.start path span f) (hfinal : a.isFinal f = true) :
    ∃ ps, rule.Derivation i strip ps ∧ ps.flatMap Piece.symbols = span ∧
      Output.ofPath a path = ps.foldl Output.add {} := by
  obtain ⟨-, hreject, last, n, hlast, hlaid⟩ := Assembly.layout_of_automaton h
  obtain ⟨p, q, v, ps, rfl, rfl, hq, hps, hemits⟩ := (Layout.traces_of_laidAll hreject _
    (.inl ⟨rfl, hrule.tracesTarget hreject⟩) hlaid).split hrun hfinal
  obtain ⟨rfl, rfl⟩ := hq.eq_nil (congrArg View.arcs hlast)
  obtain ⟨-, hadds⟩ := hemits {} Output.ready_empty
  refine ⟨ps, hps, (List.append_nil _).symm, ?_⟩
  rw [List.append_nil]
  exact hadds

/-- A run from the start to a final state writes and records what a derivation does. -/
theorem WellFormed.output_of_run (hrule : rule.WellFormed) (h : rule.automaton i strip = .ok a)
    {f : StateId} (hrun : a.Run Automaton.start path span f) (hfinal : a.isFinal f = true) :
    ∃ ps, rule.Derivation i strip ps ∧ ps.flatMap Piece.symbols = span ∧
      (Output.ofPath a path).written = ps.flatMap Piece.text ∧
      (Output.ofPath a path).changes = ps.filterMap Piece.change? := by
  obtain ⟨ps, hps, hsymbols, houtput⟩ := hrule.ofPath_of_run h hrun hfinal
  rw [houtput]
  exact ⟨ps, hps, hsymbols, Output.written_foldl_add, Output.changes_foldl_add⟩

/-- A rule matches just what has a derivation. -/
theorem WellFormed.mem_language_iff (hrule : rule.WellFormed)
    (h : rule.automaton i strip = .ok a) : span ∈ rule.language i strip ↔
      ∃ ps, rule.Derivation i strip ps ∧ ps.flatMap Piece.symbols = span := by
  constructor
  · intro hspan
    rw [← futures_start h] at hspan
    obtain ⟨f, ⟨path, hrun⟩, hfinal⟩ := hspan
    obtain ⟨ps, hps, hsymbols, -⟩ := hrule.output_of_run h hrun hfinal
    exact ⟨ps, hps, hsymbols⟩
  · rintro ⟨ps, hps, rfl⟩
    exact mem_language_of_derivation hps

/-- The path that the search finds through a span writes and records what a derivation of the span
does. -/
theorem output_of_acceptingPath (hrule : rule.Readable) (h : rule.table i options = .ok t)
    (hpath : t.automaton.acceptingPath span = some path) :
    ∃ ps, rule.Derivation i options.stripOptionals ps ∧ ps.flatMap Piece.symbols = span ∧
      (Output.ofPath t.automaton path).written = ps.flatMap Piece.text ∧
      (Output.ofPath t.automaton path).changes = ps.filterMap Piece.change? := by
  obtain ⟨s, hrun, hfinal⟩ := Automaton.run_of_acceptingPath hpath
  exact hrule.wellFormed.output_of_run (table_eq_ok h).1 hrun hfinal

/-- Stops of which one begins another, and their voiced forms. -/
def stopsAndVoiced : Inventory where
  categories := [(['S'], .ofList [['p'], ['p', 'h'], ['t']])]
  featureSets := [(FeatureSet.new ['v']).paired ['p'] ['b'] |>.paired ['p', 'h'] ['b', 'h']
    |>.paired ['t'] ['d']]

/-- `[S -v](aSo|l)/[+v]ex/_`: a stop is voiced, and in the first branch `a` becomes `e`, the stop is
deleted, and `o` becomes the `x` that is left over. -/
def lenition : Rule where
  target := [.compound [.category ['S'], .feature false ['v']],
    .disjunction [[.utterance ['a'], .set (.category ['S']), .utterance ['o']],
      [.utterance ['l']]]]
  result := [.set (.feature true ['v']), .utterance ['e'], .utterance ['x']]
  environment := [.placeholder]

theorem lenition_readable : lenition.Readable := by
  have hread : (Statement.readAll ("S { p ph t }\n[v] { p => b, ph => bh, t => d }\n" ++
      "[S-v](a S o|l) => [+v] e x / _\n").toList)[2]? =
        some ⟨3, .ok (.rule lenition ⟨3, 1⟩)⟩ := by
    cbv
  exact ⟨_, _, _, List.mem_of_getElem? hread, rfl⟩

theorem lenition_output : lenition.Readable ∧ ∃ t path,
    lenition.table stopsAndVoiced {} = .ok t ∧
    t.automaton.acceptingPath (Symbol.ofText "phapo".toList) = some path ∧
    (Output.ofPath t.automaton path).written = "bhex".toList ∧
    (Output.ofPath t.automaton path).changes.map (fun c => (c.replaced, c.replacement)) =
      [(['p', 'h'], ['b', 'h']), (['a'], ['e']), (['p'], []), (['o'], ['x'])] ∧
    ∃ ps, lenition.Derivation stopsAndVoiced true ps ∧
      ps.flatMap Piece.symbols = Symbol.ofText "phapo".toList ∧
      (Output.ofPath t.automaton path).written = ps.flatMap Piece.text ∧
      (Output.ofPath t.automaton path).changes = ps.filterMap Piece.change? := by
  obtain ⟨t, ht⟩ : ∃ t, lenition.table stopsAndVoiced {} = .ok t := exists_ok (by decide +kernel)
  have houtput : (lenition.table stopsAndVoiced {}).map (fun t =>
      (t.automaton.acceptingPath (Symbol.ofText "phapo".toList)).map fun path =>
        let o := Output.ofPath t.automaton path
        (o.written, o.changes.map fun c => (c.replaced, c.replacement))) =
      .ok (some ("bhex".toList,
        [(['p', 'h'], ['b', 'h']), (['a'], ['e']), (['p'], []), (['o'], ['x'])])) := by
    decide +kernel
  rw [ht] at houtput
  obtain ⟨path, hpath, houtput⟩ := Option.map_eq_some_iff.mp (Except.ok.inj houtput)
  obtain ⟨hwritten, hchanges⟩ := Prod.mk.inj houtput
  exact ⟨lenition_readable, t, path, ht, hpath, hwritten, hchanges,
    output_of_acceptingPath lenition_readable ht hpath⟩

end Rule

end SoundChange
