import SoundChange.Proofs.Rule.Layout
import SoundChange.Proofs.Rule.Ways
import Mathlib.Data.List.Sort

/-!
# One element in the place of another

`Element.Replaces R es es'`: the second sequence is the first one with an element, at any depth,
replaced by one to which `R` relates it; `Rule.Replaces` says the same of the target or of the
environment of a rule. What the elements of a sequence are replaced by in the target depends on
their number alone, so nothing else is changed by it.

Two elements with the same ways can stand for each other: then the rules have the same ways
(`Rule.Replaces.relabel_ways`). Ways may be compared up to a part of what they record, which
`Ways.relabel` takes away.

Two such pairs of elements are an optional element and the choice between its body and nothing
(`Element.OrNothing`), and a set and the choice between its segments (`Inventory.SpelledOut`), which
differ in the source that they record.
-/

namespace SoundChange

/-! ## Ways up to what they record -/

namespace Piece

/-- The piece with what it records changed. -/
def relabel (f : Change → Change) : Piece → Piece
  | kept symbol => .kept symbol
  | changed change => .changed (f change)

end Piece

namespace Ways

variable {f : Change → Change} {F F' G G' : Ways}

/-- The ways with what they record changed. -/
def relabel (f : Change → Change) (F : Ways) : Ways := fun w =>
  (F w).map fun x => (x.1.map (Piece.relabel f), x.2)

theorem relabel_orElse : (F.orElse G).relabel f = (F.relabel f).orElse (G.relabel f) :=
  funext fun _ => List.map_append

theorem relabel_followedBy :
    (F.followedBy G).relabel f = (F.relabel f).followedBy (G.relabel f) := by
  funext w
  simp only [relabel, followedBy, List.map_flatMap, List.flatMap_map, List.map_map]
  refine List.flatMap_congr fun x _ => List.map_congr_left fun y _ => ?_
  simp

theorem relabel_orElse_congr (h : F.relabel f = F'.relabel f) (h' : G.relabel f = G'.relabel f) :
    (F.orElse G).relabel f = (F'.orElse G').relabel f := by
  rw [relabel_orElse, relabel_orElse, h, h']

theorem relabel_followedBy_congr (h : F.relabel f = F'.relabel f)
    (h' : G.relabel f = G'.relabel f) :
    (F.followedBy G).relabel f = (F'.followedBy G').relabel f := by
  rw [relabel_followedBy, relabel_followedBy, h, h']

end Ways

namespace Emission

variable {es es' results : List Element} {overflow : Text} {m : Option Emission}

/-- What elements are replaced by depends on how many they are. -/
theorem shares_congr (h : es.length = es'.length) :
    shares results overflow es = shares results overflow es' := by
  refine List.ext_getElem (by rw [length_shares, length_shares, h]) fun k _ _ => ?_
  simp only [shares, List.getElem_mapIdx, h]

theorem within_congr (h : es.length = es'.length) : within m es = within m es' := by
  cases m with
  | none => rfl
  | some m => exact shares_congr h

end Emission

/-! ## Sequences -/

namespace Element

variable {R : Element → Element → Prop} {es es' : List Element} {i : Inventory}
  {f : Change → Change} {T T' : Ways} {m : Option Emission} {ms : List Emission}

/-- A sequence with one element, at any depth, replaced by another one. -/
inductive Replaces (R : Element → Element → Prop) : List Element → List Element → Prop where
  | here {e e' : Element} {es : List Element} : R e e' → Replaces R (e :: es) (e' :: es)
  | behind {e : Element} {es es' : List Element} :
      Replaces R es es' → Replaces R (e :: es) (e :: es')
  | inOptional {body body' es : List Element} : Replaces R body body' →
      Replaces R (.optional body :: es) (.optional body' :: es)
  | inBranch {branch branch' es : List Element} {before after : List (List Element)} :
      Replaces R branch branch' → Replaces R (.disjunction (before ++ branch :: after) :: es)
        (.disjunction (before ++ branch' :: after) :: es)

theorem Replaces.ne_nil (h : Replaces R es es') : es ≠ [] ∧ es' ≠ [] := by
  cases h <;> exact ⟨List.cons_ne_nil _ _, List.cons_ne_nil _ _⟩

theorem Replaces.length_eq (h : Replaces R es es') : es.length = es'.length := by
  induction h with
  | behind _ ih => rw [List.length_cons, List.length_cons, ih]
  | _ => rfl

/-- A property that all groups have is kept, if it is kept for what is replaced. -/
theorem Replaces.everyOf {p : Element → Prop} (hoptional : ∀ body, p (.optional body))
    (hdisjunction : ∀ branches, p (.disjunction branches))
    (hR : ∀ e e', R e e' → e.Every p → e'.Every p) (h : Replaces R es es')
    (hes : EveryOf p es) : EveryOf p es' := by
  induction h with
  | here h => exact ⟨hR _ _ h hes.1, hes.2⟩
  | behind _ ih => exact ⟨hes.1, ih hes.2⟩
  | inOptional _ ih => exact ⟨⟨hoptional _, ih hes.1.2⟩, hes.2⟩
  | @inBranch branch branch' es before after _ ih =>
    refine ⟨⟨hdisjunction _, everyAmong_iff.mpr fun b hb => ?_⟩, hes.2⟩
    have hall := everyAmong_iff.mp hes.1.2
    rcases List.mem_append.mp hb with hb | hb
    · exact hall b (List.mem_append_left _ hb)
    · rcases List.mem_cons.mp hb with rfl | hb
      · exact ih (hall _ (List.mem_append_right _ (List.mem_cons_self ..)))
      · exact hall b (List.mem_append_right _ (List.mem_cons_of_mem _ hb))

/-- Both elements have the same ways, up to what `f` changes in what they record. -/
def SameWays (i : Inventory) (f : Change → Change) (e e' : Element) : Prop :=
  ∀ (T : Ways) (m : Option Emission), (e.ways i T m).relabel f = (e'.ways i T m).relabel f

mutual

/-- The ways of an element depend on those of the target up to what is changed in their records. -/
theorem relabel_ways_target (hT : T.relabel f = T'.relabel f) : ∀ (e : Element)
    (m : Option Emission), (e.ways i T m).relabel f = (e.ways i T' m).relabel f
  | .utterance _, _ => rfl
  | .set _, _ => rfl
  | .compound _, _ => rfl
  | .optional body, m => Ways.relabel_orElse_congr (relabel_waysAll_target hT body _) rfl
  | .disjunction branches, m => relabel_waysAny_target hT branches m
  | .boundary _, _ => rfl
  | .placeholder, m => by
    rw [ways, ways]
    split
    · rfl
    · exact hT

theorem relabel_waysAll_target (hT : T.relabel f = T'.relabel f) : ∀ (es : List Element)
    (ms : List Emission), (waysAll i T ms es).relabel f = (waysAll i T' ms es).relabel f
  | [], _ => rfl
  | e :: es, ms => Ways.relabel_followedBy_congr (relabel_ways_target hT e ms.head?)
      (relabel_waysAll_target hT es ms.tail)

theorem relabel_waysAny_target (hT : T.relabel f = T'.relabel f) :
    ∀ (branches : List (List Element)) (m : Option Emission),
      (waysAny i T m branches).relabel f = (waysAny i T' m branches).relabel f
  | [], _ => rfl
  | branch :: branches, m => Ways.relabel_orElse_congr (relabel_waysAll_target hT branch _)
      (relabel_waysAny_target hT branches m)

end

theorem waysAny_append : ∀ {branches more : List (List Element)},
    waysAny i T m (branches ++ more) = (waysAny i T m branches).orElse (waysAny i T m more)
  | [], more => rfl
  | branch :: branches, more => by
    rw [List.cons_append, waysAny, waysAny, waysAny_append]
    exact funext fun w => (List.append_assoc ..).symm

/-- An element with the same ways does not change the ways of a sequence. -/
theorem Replaces.relabel_waysAll (hR : ∀ e e', R e e' → SameWays i f e e')
    (h : Replaces R es es') :
    (waysAll i T ms es).relabel f = (waysAll i T ms es').relabel f := by
  induction h generalizing ms with
  | here h => exact Ways.relabel_followedBy_congr (hR _ _ h T ms.head?) rfl
  | behind _ ih => exact Ways.relabel_followedBy_congr rfl ih
  | inOptional h ih =>
    refine Ways.relabel_followedBy_congr ?_ rfl
    rw [ways, ways, Emission.within_congr h.length_eq]
    exact Ways.relabel_orElse_congr ih rfl
  | inBranch h ih =>
    refine Ways.relabel_followedBy_congr ?_ rfl
    rw [ways, ways, waysAny_append, waysAny_append, waysAny, waysAny,
      Emission.within_congr h.length_eq]
    exact Ways.relabel_orElse_congr rfl (Ways.relabel_orElse_congr ih rfl)

/-- Where no optional element is replaced, and none replaces, the same elements are left out at the
end. -/
theorem beforeOptionals_replaces
    (hR : ∀ e e', R e e' → e.isOptional = false ∧ e'.isOptional = false)
    (h : Replaces R es es') : beforeOptionals es = beforeOptionals es' ∨
      Replaces R (beforeOptionals es) (beforeOptionals es') := by
  induction h with
  | here h =>
    obtain ⟨he, he'⟩ := hR _ _ h
    rw [beforeOptionals_cons, beforeOptionals_cons, he, he', if_neg (by simp), if_neg (by simp)]
    exact .inr (.here h)
  | behind _ ih =>
    rw [beforeOptionals_cons, beforeOptionals_cons]
    rcases ih with ih | ih
    · exact .inl (by rw [ih])
    · rw [if_neg fun h => ih.ne_nil.1 h.1, if_neg fun h => ih.ne_nil.2 h.1]
      exact .inr (.behind ih)
  | inOptional h _ =>
    rw [beforeOptionals_cons, beforeOptionals_cons]
    simp only [isOptional, and_true]
    split
    · exact .inl rfl
    · exact .inr (.inOptional h)
  | inBranch h _ =>
    rw [beforeOptionals_cons, beforeOptionals_cons, if_neg (by simp [isOptional]),
      if_neg (by simp [isOptional])]
    exact .inr (.inBranch h)

end Element

/-! ## Rules -/

namespace Rule

open Element (Replaces SameWays)

variable {R : Element → Element → Prop} {es es' : List Element} {i : Inventory} {strip : Bool}
  {f : Change → Change} {rule rule' : Rule} {span : List Symbol}

/-- A rule with one element of its target or its environment replaced by another one. -/
inductive Replaces (R : Element → Element → Prop) (rule : Rule) : Rule → Prop where
  | target {es : List Element} :
      Element.Replaces R rule.target es → Replaces R rule { rule with target := es }
  | environment {es : List Element} :
      Element.Replaces R rule.environment es → Replaces R rule { rule with environment := es }

/-- The environment without what is left out at its end has the element replaced too, or does not
have it. -/
theorem environmentFor_replaces
    (hR : strip = true → ∀ e e', R e e' → e.isOptional = false ∧ e'.isOptional = false)
    (h : Element.Replaces R rule.environment es) :
    rule.environmentFor strip = ({ rule with environment := es } : Rule).environmentFor strip ∨
      Element.Replaces R (rule.environmentFor strip)
        (({ rule with environment := es } : Rule).environmentFor strip) := by
  cases strip with
  | false => exact .inr h
  | true => exact Element.beforeOptionals_replaces (hR rfl) h

/-- An element with the same ways does not change the ways of a rule. -/
theorem Replaces.relabel_ways (hR : ∀ e e', R e e' → SameWays i f e e')
    (hstrip : strip = true → ∀ e e', R e e' → e.isOptional = false ∧ e'.isOptional = false)
    (h : rule.Replaces R rule') :
    (rule.ways i strip).relabel f = (rule'.ways i strip).relabel f := by
  cases h with
  | target h =>
    refine Element.relabel_waysAll_target ?_ _ _
    rw [targetWays, targetWays, Emission.shares_congr h.length_eq]
    exact h.relabel_waysAll hR
  | environment h =>
    rcases environmentFor_replaces hstrip h with heq | h
    · rw [ways, ways, heq]
      rfl
    · exact h.relabel_waysAll hR

/-- The preferred way of a rule, up to what is changed in what it records. -/
theorem map_preferred? : (rule.preferred? i strip span).map (List.map (Piece.relabel f)) =
    (((rule.ways i strip).relabel f span).find? (·.2.isEmpty)).map (·.1) := by
  rw [preferred?, Ways.relabel, List.find?_map, Option.map_map, Option.map_map]
  rfl

/-- A rule stays well formed with an element that is so itself. -/
theorem WellFormed.replaces (hrule : rule.WellFormed) (h : rule.Replaces R rule')
    (htarget : ∀ e e', R e e' → e.Every Element.InTarget → e'.Every Element.InTarget)
    (henvironment : ∀ e e', R e e' → e.Every (· ≠ .utterance []) →
      e'.Every (· ≠ .utterance [])) : rule'.WellFormed := by
  cases h with
  | target h =>
    refine ⟨h.everyOf (fun _ => ⟨nofun, nofun, rfl⟩) (fun _ => ⟨nofun, nofun, rfl⟩) htarget
      hrule.target, hrule.result, hrule.environment⟩
  | environment h =>
    exact ⟨hrule.target, hrule.result, h.everyOf (fun _ => nofun) (fun _ => nofun) henvironment
      hrule.environment⟩

end Rule

/-! ## An optional element -/

namespace Element

/-- An optional element and the choice between its body and nothing. -/
inductive OrNothing : Element → Element → Prop where
  | intro (body : List Element) : OrNothing (.optional body) (.disjunction [body, []])

theorem OrNothing.sameWays {i : Inventory} {e e' : Element} (h : OrNothing e e') :
    SameWays i id e e' := by
  cases h with
  | intro body =>
    intro T m
    rw [ways, ways, waysAny, waysAny, waysAny, Ways.orElse_none, waysAll]

theorem OrNothing.every {p : Element → Prop} {e e' : Element} (h : OrNothing e e')
    (hdisjunction : ∀ branches, p (.disjunction branches)) (he : e.Every p) : e'.Every p := by
  cases h with
  | intro body => exact ⟨hdisjunction _, he.2, trivial, trivial⟩

end Element

/-! ## A set -/

/-- The change without its source. -/
def Change.unsourced (c : Change) : Change := { c with source := [] }

namespace Inventory

/-- A set and the choice between its segments, none of which begins a later one. -/
inductive SpelledOut (i : Inventory) : Element → Element → Prop where
  | intro {e : Element} {members : SortedSet Text} {texts : List Text} : e.isSet = true →
      i.membersOf e = .ok members → (∀ text, text ∈ texts ↔ text ∈ members ∧ text ≠ []) →
      texts.Pairwise (fun x y => ¬ x <+: y) →
      SpelledOut i e (.disjunction (texts.map fun text => [.utterance text]))

variable {i : Inventory} {e e' : Element} {m : Option Emission} {T : Ways} {texts : List Text}
  {w : List Symbol}

/-- So it is when the segments are ordered by decreasing length. -/
theorem spelledOut_of_length (members : SortedSet Text) (texts : List Text) (hset : e.isSet = true)
    (hmembers : i.membersOf e = .ok members) (hnodup : texts.Nodup)
    (hmem : ∀ text, text ∈ texts ↔ text ∈ members ∧ text ≠ [])
    (hlength : texts.Pairwise fun x y => y.length ≤ x.length) :
    i.SpelledOut e (.disjunction (texts.map fun text => [.utterance text])) :=
  .intro hset hmembers hmem <| (hnodup.and hlength).imp fun ⟨hne, hle⟩ hxy =>
    hne (hxy.eq_of_length_le hle)

theorem map_rendered (e e' : Element) (text : Text) :
    (rendered i e m text).map (Piece.relabel Change.unsourced) =
      (rendered i e' m text).map (Piece.relabel Change.unsourced) := by
  cases m with
  | none => rfl
  | some m =>
    rw [rendered, rendered]
    split <;> rfl

/-- What replaces a group replaces its only element. -/
theorem head?_within_singleton : (Emission.within m [e]).head? = m := by
  cases m with
  | none => rfl
  | some m =>
    obtain ⟨result, overflow⟩ := m
    cases result <;> simp [Emission.within, Emission.shares]

/-- Of a choice between texts, those are read with which the symbols begin. -/
theorem waysAny_texts : Element.waysAny i T m (texts.map fun text => [.utterance text]) w =
    (texts.filter fun text => Symbol.ofText text <+: w).map fun text =>
      (rendered i (.utterance text) m text, w.drop text.length) := by
  induction texts with
  | nil => rfl
  | cons text texts ih =>
    rw [List.map_cons, Element.waysAny, Element.waysAll, Element.waysAll,
      Ways.followedBy_nothing, head?_within_singleton, Element.ways, Ways.orElse, ih, Ways.text,
      List.filter_cons]
    by_cases h : Symbol.ofText text <+: w
    · rw [if_pos h, if_pos (decide_eq_true h)]
      rfl
    · rw [if_neg h, if_neg (by simpa using h)]
      rfl

/-- Of texts none of which begins a later one, those with which some symbols begin get shorter. -/
theorem pairwise_filter_beginnings (h : texts.Pairwise fun x y => ¬ x <+: y) :
    (texts.filter fun text => Symbol.ofText text <+: w).Pairwise fun x y =>
      y.length < x.length := by
  refine List.Pairwise.imp_of_mem (fun {x y} hx hy hxy => ?_) (h.filter _)
  have hx : Symbol.ofText x <+: w := by simpa using (List.mem_filter.mp hx).2
  have hy : Symbol.ofText y <+: w := by simpa using (List.mem_filter.mp hy).2
  refine Nat.lt_of_not_le fun hle => hxy ?_
  have hinjective : Function.Injective Symbol.char := fun _ _ => Symbol.char.inj
  exact (List.prefix_map_iff_of_injective hinjective).mp
    (List.prefix_of_prefix_length_le hx hy (by simpa [Symbol.ofText] using hle))

theorem SpelledOut.sameWays (h : i.SpelledOut e e') :
    Element.SameWays i Change.unsourced e e' := by
  cases h with
  | @intro members texts hset hmembers hmem hpairwise =>
    intro T m
    funext w
    have htrie : i.trie e = .ok (.ofSet members) := trie_eq_ok.mpr ⟨members, hmembers, rfl⟩
    have hways : e.ways i T m w = (Trie.ofSet members).forest.ways i e m [] w := by
      cases e with
      | set => rw [Element.ways, Ways.segments, htrie]
      | compound => rw [Element.ways, Ways.segments, htrie]
      | _ => cases hset
    -- both list the members with which the symbols begin, each shorter than the one before it
    have hbeginnings : (Trie.ofSet members).forest.beginnings w =
        texts.filter fun text => Symbol.ofText text <+: w := by
      have hwf := Trie.wellFormed_ofSet members
      have : Std.Antisymm fun x y : Text => y.length < x.length :=
        ⟨fun _ _ h h' => absurd h (Nat.lt_asymm h')⟩
      have : Std.Irrefl fun x y : Text => y.length < x.length := ⟨fun _ => Nat.lt_irrefl _⟩
      refine (Forest.pairwise_beginnings hwf).eq_of_mem_iff (pairwise_filter_beginnings hpairwise)
        fun text => ?_
      rw [Forest.mem_beginnings hwf, Trie.has_ofSet, List.mem_filter, hmem, decide_eq_true_iff]
    rw [Ways.relabel, Ways.relabel, hways, Forest.ways, hbeginnings, Element.ways, waysAny_texts,
      List.map_map, List.map_map]
    refine List.map_congr_left fun text _ => ?_
    rw [Function.comp_apply, Function.comp_apply, List.nil_append,
      map_rendered e (.utterance text)]

theorem SpelledOut.every {p : Element → Prop} (h : i.SpelledOut e e')
    (hdisjunction : ∀ branches, p (.disjunction branches))
    (htext : ∀ text, text ≠ [] → p (.utterance text)) : e'.Every p := by
  cases h with
  | intro hset hmembers hmem hpairwise =>
    refine ⟨hdisjunction _, Element.everyAmong_iff.mpr fun branch hbranch => ?_⟩
    obtain ⟨text, hmember, rfl⟩ := List.mem_map.mp hbranch
    exact ⟨htext text ((hmem text).mp hmember).2, trivial⟩

theorem SpelledOut.isOptional_eq (h : i.SpelledOut e e') :
    e.isOptional = false ∧ e'.isOptional = false := by
  cases h with
  | intro hset => cases e <;> first | exact ⟨rfl, rfl⟩ | cases hset

end Inventory

end SoundChange
