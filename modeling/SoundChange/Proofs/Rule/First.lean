import SoundChange.Proofs.Rule.Language
import SoundChange.Proofs.Rule.WellFormed

/-!
# First sets tell how a match begins

`FirstSet.Covers f L`: the set `f` has the first symbol of every word of `L`, and knows if `L` has
the empty word. The first sets of the elements of a rule cover what the elements match
(`FirstSet.covers_element`), provided that no element is an empty text: a text is taken to begin
with its first character. What the placeholder matches must be covered by what is given for it,
unless there is no placeholder; the two conditions together are `FirstSet.Suits`.
-/

namespace SoundChange

namespace FirstSet

variable {f g : FirstSet} {L M P : Language Symbol} {i : Inventory}
  {target : Except RuleError FirstSet}

/-- The words of a language begin as a first set says. -/
structure Covers (f : FirstSet) (L : Language Symbol) : Prop where
  nullable_of_nil : [] ∈ L → f.nullable = true
  mem_of_cons {c : Symbol} {w : List Symbol} : c :: w ∈ L → c ∈ f.symbols

theorem covers_nothing : nothing.Covers 1 where
  nullable_of_nil _ := rfl
  mem_of_cons h := by cases (Language.mem_one _).mp h

theorem covers_none : (ofSymbols []).Covers 0 where
  nullable_of_nil h := absurd h (Language.notMem_zero _)
  mem_of_cons h := absurd h (Language.notMem_zero _)

theorem Covers.ofSymbols {symbols : List Symbol}
    (h : ∀ w ∈ L, ∃ c v, w = c :: v ∧ c ∈ symbols) : (ofSymbols symbols).Covers L where
  nullable_of_nil hnil := by
    obtain ⟨c, v, hw, -⟩ := h _ hnil
    cases hw
  mem_of_cons hcons := by
    obtain ⟨c, v, hw, hc⟩ := h _ hcons
    cases hw
    exact SortedSet.mem_ofList.mpr hc

theorem Covers.orNothing (h : f.Covers L) : f.orNothing.Covers (L + 1) where
  nullable_of_nil _ := rfl
  mem_of_cons hw := by
    rcases hw with hw | hw
    · exact h.mem_of_cons hw
    · cases hw

theorem Covers.orElse (hf : f.Covers L) (hg : g.Covers M) : (f.orElse g).Covers (L + M) where
  nullable_of_nil hw := by
    rw [FirstSet.orElse, Bool.or_eq_true]
    exact hw.imp hf.nullable_of_nil hg.nullable_of_nil
  mem_of_cons hw := SortedSet.mem_union.mpr (hw.imp hf.mem_of_cons hg.mem_of_cons)

/-- A product begins with its first factor, which leaves the second one to be seen only if it can be
empty. -/
theorem Covers.followedBy (hf : f.Covers L) (hg : f.nullable = true → g.Covers M) :
    (f.followedBy g).Covers (L * M) := by
  cases hnull : f.nullable with
  | true =>
    rw [FirstSet.followedBy, if_pos hnull]
    refine ⟨fun hw => ?_, fun {c w} hw => SortedSet.mem_union.mpr ?_⟩
    · obtain ⟨u, hu, v, hv, huv⟩ := Language.mem_mul.mp hw
      obtain ⟨rfl, rfl⟩ := List.append_eq_nil_iff.mp huv
      exact (hg hnull).nullable_of_nil hv
    · obtain ⟨u, hu, v, hv, huv⟩ := Language.mem_mul.mp hw
      cases u with
      | nil =>
        obtain rfl : v = c :: w := huv
        exact .inr ((hg hnull).mem_of_cons hv)
      | cons d u =>
        cases huv
        exact .inl (hf.mem_of_cons hu)
  | false =>
    have hne {u : List Symbol} (hu : u ∈ L) : u ≠ [] := by
      rintro rfl
      rw [hf.nullable_of_nil hu] at hnull
      cases hnull
    rw [FirstSet.followedBy, hnull, if_neg Bool.false_ne_true]
    refine ⟨fun hw => ?_, fun {c w} hw => ?_⟩
    · obtain ⟨u, hu, v, hv, huv⟩ := Language.mem_mul.mp hw
      exact absurd (List.append_eq_nil_iff.mp huv).1 (hne hu)
    · obtain ⟨u, hu, v, hv, huv⟩ := Language.mem_mul.mp hw
      cases u with
      | nil => exact absurd rfl (hne hu)
      | cons d u =>
        cases huv
        exact hf.mem_of_cons hu

/-- The words of a segment set begin with a first character of its trie. -/
theorem covers_segments {e : Element} {t : Trie} (h : i.trie e = .ok t) :
    (ofSymbols (t.firstChars.map Symbol.char)).Covers (i.segments e) := by
  obtain ⟨members, hmembers, rfl⟩ := Inventory.trie_eq_ok.mp h
  refine Covers.ofSymbols fun w hw => ?_
  obtain ⟨members', hmembers', m, hm, hne, rfl⟩ := hw
  cases hmembers.symm.trans hmembers'
  obtain ⟨c, cs, rfl⟩ := List.exists_cons_of_ne_nil hne
  have hfirst := Forest.mem_firstChars_of_has (Trie.has_ofSet.mpr ⟨hm, hne⟩)
  exact ⟨.char c, Symbol.ofText cs, rfl, List.mem_map_of_mem (Trie.mem_firstChars.mpr hfirst)⟩

theorem covers_text {text : Text} (h : text ≠ []) :
    (ofSymbols ((text.take 1).map Symbol.char)).Covers {Symbol.ofText text} := by
  obtain ⟨c, cs, rfl⟩ := List.exists_cons_of_ne_nil h
  refine Covers.ofSymbols fun w hw => ?_
  obtain rfl := Set.mem_singleton_iff.mp hw
  exact ⟨.char c, Symbol.ofText cs, rfl, List.mem_singleton.mpr rfl⟩

/-- The element is no empty text, and if it is a placeholder, what is given for it covers what it
matches. -/
def Suits (target : Except RuleError FirstSet) (P : Language Symbol) (e : Element) : Prop :=
  e ≠ .utterance [] ∧ (e = .placeholder → ∀ f, target = .ok f → f.Covers P)

mutual

/-- The first set of an element covers what the element matches. -/
theorem covers_element : ∀ {e : Element} {f : FirstSet}, e.Every (Suits target P) →
    ofElement i target e = .ok f → f.Covers (e.language i P)
  | .utterance text, f, hs, h => by
    cases h
    exact covers_text fun hnil => hs.1 (by rw [hnil])
  | .set ref, f, hs, h => by
    obtain ⟨t, ht, rfl⟩ := map_eq_ok.mp h
    exact covers_segments ht
  | .compound refs, f, hs, h => by
    obtain ⟨t, ht, rfl⟩ := map_eq_ok.mp h
    exact covers_segments ht
  | .optional body, f, hs, h => by
    obtain ⟨g, hg, rfl⟩ := map_eq_ok.mp h
    exact (covers_sequence hs.2 hg).orNothing
  | .disjunction branches, f, hs, h => covers_branches hs.2 h
  | .boundary edge, f, hs, h => by
    cases edge <;> cases h <;>
      exact Covers.ofSymbols fun w hw => ⟨_, [], hw, List.mem_singleton.mpr rfl⟩
  | .placeholder, f, hs, h => hs.2 rfl f h

/-- The first set of a sequence covers what the sequence matches. -/
theorem covers_sequence : ∀ {es : List Element} {f : FirstSet},
    Element.EveryOf (Suits target P) es →
    ofSequence i target es = .ok f → f.Covers (Element.languageAll i P es)
  | [], f, _, h => by
    cases h
    exact covers_nothing
  | e :: es, f, hs, h => by
    rw [ofSequence] at h
    cases he : ofElement i target e with
    | error err =>
      rw [he] at h
      cases h
    | ok g =>
      have hg := covers_element hs.1 he
      rw [he] at h
      dsimp only at h
      rw [Element.languageAll]
      cases hnull : g.nullable with
      | true =>
        rw [hnull, if_pos rfl] at h
        obtain ⟨r, hr, rfl⟩ := map_eq_ok.mp h
        exact hg.followedBy fun _ => covers_sequence hs.2 hr
      | false =>
        rw [hnull, if_neg Bool.false_ne_true] at h
        cases h
        have hcovers := hg.followedBy (g := .nothing)
          (M := Element.languageAll i P es) fun h => absurd (hnull.symm.trans h) nofun
        rwa [followedBy, hnull, if_neg Bool.false_ne_true] at hcovers

/-- The first set of a choice covers what its branches match. -/
theorem covers_branches : ∀ {branches : List (List Element)} {f : FirstSet},
    Element.EveryAmong (Suits target P) branches → ofBranches i target branches = .ok f →
    f.Covers (Element.languageAny i P branches)
  | [], f, _, h => by
    cases h
    exact covers_none
  | branch :: branches, f, hs, h => by
    rw [ofBranches] at h
    cases hbranch : ofSequence i target branch with
    | error err =>
      rw [hbranch] at h
      cases h
    | ok g =>
      rw [hbranch] at h
      obtain ⟨r, hr, rfl⟩ := map_eq_ok.mp h
      exact (covers_sequence hs.1 hbranch).orElse (covers_branches hs.2 hr)

end

end FirstSet

end SoundChange
