import SoundChange.Proofs.Rule.First

/-!
# First sets are exact

Beside covering what an element matches (`FirstSet.Covers`), a first set says no more of it than is
so. If it is nullable, nothing can be matched. Its symbols are those that a match begins with,
provided that what comes later can be matched at all: a set without segments, or a choice without
branches, keeps a whole sequence from matching (`Element.Satisfiable`). So the second half of
`FirstSet.Attained` stands under a proposition `p`, which will say that this is not the case.

A first set looks at a sequence up to the first element that must match, and this depends on nothing
but the parts of the sequence: `FirstSet.ofSequence_append`.
-/

namespace SoundChange

/-! ## What can be matched at all -/

namespace Element

variable {i : Inventory} {P : Language Symbol}

/-- The element does not keep a sequence from being matched: the set that it names has a segment,
and a choice has a branch. -/
structure Satisfiable (i : Inventory) (e : Element) : Prop where
  segment : e.isSet = true → ∃ members, i.membersOf e = .ok members ∧ ∃ m ∈ members, m ≠ []
  branch : e ≠ disjunction []

/-- The element is satisfiable, and if it is a placeholder, then so is what it matches. -/
def Admits (i : Inventory) (P : Language Symbol) (e : Element) : Prop :=
  e.Satisfiable i ∧ (e = placeholder → ∃ w, w ∈ P)

theorem Satisfiable.exists_mem {e : Element} (h : e.Satisfiable i) (he : e.isSet = true) :
    ∃ w, w ∈ i.segments e := by
  obtain ⟨members, hmembers, m, hm, hne⟩ := h.segment he
  exact ⟨_, members, hmembers, m, hm, hne, rfl⟩

mutual

/-- What an element matches is not empty. -/
theorem exists_mem_language : ∀ {e : Element}, e.Every (Admits i P) → ∃ w, w ∈ e.language i P
  | utterance _, _ => ⟨_, rfl⟩
  | set _, h => h.1.exists_mem rfl
  | compound _, h => h.1.exists_mem rfl
  | optional _, _ => ⟨[], .inr rfl⟩
  | disjunction [], h => absurd rfl h.1.1.branch
  | disjunction (_ :: _), h => (exists_mem_languageAll h.2.1).imp fun _ => .inl
  | boundary _, _ => ⟨_, rfl⟩
  | placeholder, h => h.2 rfl

theorem exists_mem_languageAll : ∀ {es : List Element}, EveryOf (Admits i P) es →
    ∃ w, w ∈ languageAll i P es
  | [], _ => ⟨[], rfl⟩
  | e :: es, h => by
    obtain ⟨v, hv⟩ := exists_mem_language h.1
    obtain ⟨w, hw⟩ := exists_mem_languageAll h.2
    exact ⟨v ++ w, Language.append_mem_mul hv hw⟩

end

end Element

namespace FirstSet

variable {f g : FirstSet} {L M P : Language Symbol} {i : Inventory} {p : Prop}
  {target : Except RuleError FirstSet}

/-! ## What a first set says is so -/

/-- A nullable first set is that of a language with the empty word; and if `p`, each symbol begins
a word. -/
structure Attained (p : Prop) (f : FirstSet) (L : Language Symbol) : Prop where
  nil_of_nullable : f.nullable = true → [] ∈ L
  cons_of_mem {c : Symbol} : p → c ∈ f.symbols → ∃ w, c :: w ∈ L

theorem attained_nothing : nothing.Attained p 1 where
  nil_of_nullable _ := rfl
  cons_of_mem _ hc := absurd hc SortedSet.not_mem_empty

theorem Attained.ofSymbols {symbols : List Symbol} (h : ∀ c ∈ symbols, ∃ w, c :: w ∈ L) :
    (ofSymbols symbols).Attained p L where
  nil_of_nullable := nofun
  cons_of_mem _ hc := h _ (SortedSet.mem_ofList.mp hc)

theorem Attained.orNothing (h : f.Attained p L) : f.orNothing.Attained p (L + 1) where
  nil_of_nullable _ := .inr rfl
  cons_of_mem hp hc := (h.cons_of_mem hp hc).imp fun _ => .inl

theorem Attained.orElse (hf : f.Attained p L) (hg : g.Attained p M) :
    (f.orElse g).Attained p (L + M) where
  nil_of_nullable hnull := by
    rw [FirstSet.orElse, Bool.or_eq_true] at hnull
    exact hnull.imp hf.nil_of_nullable hg.nil_of_nullable
  cons_of_mem hp hc := (SortedSet.mem_union.mp hc).elim
    (fun hc => (hf.cons_of_mem hp hc).imp fun _ => .inl)
    fun hc => (hg.cons_of_mem hp hc).imp fun _ => .inr

/-- The first factor of a product can be seen if the second one has some word, whatever it is. -/
theorem Attained.followedBy (hf : f.Attained p L) (hM : p → ∃ w, w ∈ M)
    (hg : f.nullable = true → g.Attained p M) : (f.followedBy g).Attained p (L * M) := by
  have hleft {c : Symbol} (hp : p) (hc : c ∈ f.symbols) : ∃ w, c :: w ∈ L * M := by
    obtain ⟨v, hv⟩ := hf.cons_of_mem hp hc
    obtain ⟨w, hw⟩ := hM hp
    exact ⟨v ++ w, Language.append_mem_mul hv hw⟩
  cases hnull : f.nullable with
  | true =>
    rw [FirstSet.followedBy, if_pos hnull]
    have hnil := hf.nil_of_nullable hnull
    refine ⟨fun h => Language.append_mem_mul hnil ((hg hnull).nil_of_nullable h),
      fun {c} hp hc => (SortedSet.mem_union.mp hc).elim (hleft hp) fun hc => ?_⟩
    obtain ⟨w, hw⟩ := (hg hnull).cons_of_mem hp hc
    exact ⟨w, Language.append_mem_mul hnil hw⟩
  | false =>
    rw [FirstSet.followedBy, hnull, if_neg Bool.false_ne_true]
    exact ⟨fun h => absurd (hnull.symm.trans h) Bool.false_ne_true, hleft⟩

/-- Every first character of a trie begins a segment of its set. -/
theorem attained_segments {e : Element} {t : Trie} (h : i.trie e = .ok t) :
    (ofSymbols (t.firstChars.map Symbol.char)).Attained p (i.segments e) := by
  obtain ⟨members, hmembers, rfl⟩ := Inventory.trie_eq_ok.mp h
  refine .ofSymbols fun c hc => ?_
  obtain ⟨d, hd, rfl⟩ := List.mem_map.mp hc
  obtain ⟨v, hv⟩ := (Trie.wellFormed_ofSet members).exists_has (Trie.mem_firstChars.mp hd)
  obtain ⟨hm, hne⟩ := Trie.has_ofSet.mp hv
  exact ⟨Symbol.ofText v, members, hmembers, _, hm, hne, rfl⟩

theorem attained_text {text : Text} :
    (ofSymbols ((text.take 1).map Symbol.char)).Attained p {Symbol.ofText text} := by
  refine .ofSymbols fun c hc => ?_
  cases text with
  | nil => cases hc
  | cons d text =>
    obtain rfl := List.mem_singleton.mp hc
    exact ⟨Symbol.ofText text, rfl⟩

mutual

/-- What the first set of an element says is so, if it is so of what is given for the
placeholder. -/
theorem attained_element : ∀ {e : Element} {f : FirstSet},
    e.Every (fun e => e = .placeholder → ∀ f, target = .ok f → f.Attained p P) →
    (p → e.Every (Element.Admits i P)) → ofElement i target e = .ok f →
    f.Attained p (e.language i P)
  | .utterance text, f, _, _, h => by
    cases h
    exact attained_text
  | .set ref, f, _, _, h => by
    obtain ⟨t, ht, rfl⟩ := map_eq_ok.mp h
    exact attained_segments ht
  | .compound refs, f, _, _, h => by
    obtain ⟨t, ht, rfl⟩ := map_eq_ok.mp h
    exact attained_segments ht
  | .optional body, f, htarget, hp, h => by
    obtain ⟨g, hg, rfl⟩ := map_eq_ok.mp h
    exact (attained_sequence htarget.2 (fun h => (hp h).2) hg).orNothing
  | .disjunction branches, f, htarget, hp, h =>
    attained_branches htarget.2 (fun h => (hp h).2) h
  | .boundary edge, f, _, _, h => by
    cases edge <;> cases h <;>
      exact .ofSymbols fun c hc => ⟨[], by rw [List.mem_singleton.mp hc]; rfl⟩
  | .placeholder, f, htarget, _, h => htarget rfl f h

theorem attained_sequence : ∀ {es : List Element} {f : FirstSet},
    Element.EveryOf (fun e => e = .placeholder → ∀ f, target = .ok f → f.Attained p P) es →
    (p → Element.EveryOf (Element.Admits i P) es) → ofSequence i target es = .ok f →
    f.Attained p (Element.languageAll i P es)
  | [], f, _, _, h => by
    cases h
    exact attained_nothing
  | e :: es, f, htarget, hp, h => by
    rw [ofSequence] at h
    cases he : ofElement i target e with
    | error err =>
      rw [he] at h
      cases h
    | ok g =>
      have hg := attained_element htarget.1 (fun h => (hp h).1) he
      have hrest (h : p) := Element.exists_mem_languageAll (hp h).2
      rw [he] at h
      dsimp only at h
      rw [Element.languageAll]
      cases hnull : g.nullable with
      | true =>
        rw [hnull, if_pos rfl] at h
        obtain ⟨r, hr, rfl⟩ := map_eq_ok.mp h
        exact hg.followedBy hrest fun _ => attained_sequence htarget.2 (fun h => (hp h).2) hr
      | false =>
        rw [hnull, if_neg Bool.false_ne_true] at h
        cases h
        have hattained := hg.followedBy (g := .nothing) hrest
          fun h => absurd (hnull.symm.trans h) Bool.false_ne_true
        rwa [followedBy, hnull, if_neg Bool.false_ne_true] at hattained

theorem attained_branches : ∀ {branches : List (List Element)} {f : FirstSet},
    Element.EveryAmong (fun e => e = .placeholder → ∀ f, target = .ok f → f.Attained p P)
      branches →
    (p → Element.EveryAmong (Element.Admits i P) branches) → ofBranches i target branches = .ok f →
    f.Attained p (Element.languageAny i P branches)
  | [], f, _, _, h => by
    cases h
    exact .ofSymbols nofun
  | branch :: branches, f, htarget, hp, h => by
    rw [ofBranches] at h
    cases hbranch : ofSequence i target branch with
    | error err =>
      rw [hbranch] at h
      cases h
    | ok g =>
      rw [hbranch] at h
      obtain ⟨r, hr, rfl⟩ := map_eq_ok.mp h
      exact (attained_sequence htarget.1 (fun h => (hp h).1) hbranch).orElse
        (attained_branches htarget.2 (fun h => (hp h).2) hr)

end

/-! ## One sequence after another -/

theorem nothing_followedBy (f : FirstSet) : nothing.followedBy f = f := by
  have hsymbols : SortedSet.empty.union f.symbols = f.symbols := SortedSet.ext fun c => by simp
  exact congrArg (FirstSet.mk · f.nullable) hsymbols

theorem followedBy_assoc (f g r : FirstSet) :
    (f.followedBy g).followedBy r = f.followedBy (g.followedBy r) := by
  have hunion : (f.symbols.union g.symbols).union r.symbols =
      f.symbols.union (g.symbols.union r.symbols) := SortedSet.ext fun c => by simp [or_assoc]
  unfold followedBy
  split
  · dsimp only
    split
    · rw [hunion]
    · rfl
  · rfl

/-- The first set of a sequence is made of those of its parts. -/
theorem ofSequence_append {ys : List Element} (hg : ofSequence i target ys = .ok g) :
    ∀ {xs : List Element} {f : FirstSet}, ofSequence i target xs = .ok f →
      ofSequence i target (xs ++ ys) = .ok (f.followedBy g)
  | [], f, hf => by
    cases hf
    rw [List.nil_append, nothing_followedBy]
    exact hg
  | x :: xs, f, hf => by
    rw [ofSequence] at hf
    rw [List.cons_append, ofSequence]
    cases hx : ofElement i target x with
    | error err =>
      rw [hx] at hf
      cases hf
    | ok h =>
      rw [hx] at hf
      dsimp only at hf ⊢
      cases hnull : h.nullable with
      | true =>
        rw [hnull, if_pos rfl] at hf
        obtain ⟨r, hr, rfl⟩ := map_eq_ok.mp hf
        rw [if_pos rfl, ofSequence_append hg hr, followedBy_assoc]
        rfl
      | false =>
        rw [hnull, if_neg Bool.false_ne_true] at hf
        cases hf
        rw [if_neg Bool.false_ne_true, followedBy, hnull, if_neg Bool.false_ne_true]

/-! ## The first sets of a rule -/

/-- A first set says just how the words of a language begin. -/
structure Exact (f : FirstSet) (L : Language Symbol) : Prop extends
  f.Covers L, f.Attained True L

namespace Exact

theorem nullable_iff (h : f.Exact L) : f.nullable = true ↔ [] ∈ L :=
  ⟨h.nil_of_nullable, h.nullable_of_nil⟩

theorem mem_symbols_iff {c : Symbol} (h : f.Exact L) : c ∈ f.symbols ↔ ∃ w, c :: w ∈ L :=
  ⟨h.cons_of_mem trivial, fun ⟨_, hw⟩ => h.mem_of_cons hw⟩

theorem nothing : nothing.Exact 1 := ⟨covers_nothing, attained_nothing⟩

theorem followedBy (hf : f.Exact L) (hg : g.Exact M) (hM : ∃ w, w ∈ M) :
    (f.followedBy g).Exact (L * M) :=
  ⟨hf.toCovers.followedBy fun _ => hg.toCovers,
    hf.toAttained.followedBy (fun _ => hM) fun _ => hg.toAttained⟩

end Exact

section Target

variable {es : List Element}

theorem covers_ofTarget
    (hes : Element.EveryOf (fun e => e ≠ .utterance [] ∧ e ≠ .placeholder) es)
    (h : ofTarget i es = .ok f) : f.Covers (Element.languageAll i 1 es) :=
  covers_sequence (hes.imp fun _ he => ⟨he.1, fun hplace => absurd hplace he.2⟩) h

theorem attained_ofTarget (hes : Element.EveryOf (· ≠ .placeholder) es)
    (hp : p → Element.EveryOf (Element.Satisfiable i) es) (h : ofTarget i es = .ok f) :
    f.Attained p (Element.languageAll i 1 es) :=
  attained_sequence (hes.imp fun _ he hplace => absurd hplace he)
    (fun h => (hp h).imp fun _ he => ⟨he, fun _ => ⟨[], rfl⟩⟩) h

end Target

/-- What makes the first set of an element exact: it is no empty text, it can be matched, and if it
is a placeholder, what is given for it is exact. -/
structure Told (i : Inventory) (target : Except RuleError FirstSet) (P : Language Symbol)
    (e : Element) : Prop where
  ne_nil : e ≠ .utterance []
  admits : e.Admits i P
  exact : e = .placeholder → ∀ f, target = .ok f → f.Exact P

theorem exact_sequence {es : List Element} (hes : Element.EveryOf (Told i target P) es)
    (h : ofSequence i target es = .ok f) : f.Exact (Element.languageAll i P es) :=
  ⟨covers_sequence (hes.imp fun _ he => ⟨he.ne_nil, fun hplace f hf =>
      (he.exact hplace f hf).toCovers⟩) h,
    attained_sequence (hes.imp fun _ he hplace f hf => (he.exact hplace f hf).toAttained)
      (fun _ => hes.imp fun _ he => he.admits) h⟩

theorem exact_branches {branches : List (List Element)}
    (hbranches : Element.EveryAmong (Told i target P) branches)
    (h : ofBranches i target branches = .ok f) : f.Exact (Element.languageAny i P branches) :=
  ⟨covers_branches (hbranches.imp fun _ he => ⟨he.ne_nil, fun hplace f hf =>
      (he.exact hplace f hf).toCovers⟩) h,
    attained_branches (hbranches.imp fun _ he hplace f hf => (he.exact hplace f hf).toAttained)
      (fun _ => hbranches.imp fun _ he => he.admits) h⟩

/-- The first set of a sequence, given that of the target, is nullable if the sequence can match
nothing; every symbol that a match begins with is in it; and unless some set has no segments or some
choice has no branches, every symbol in it begins a match. It is made of the first sets of the parts
of the sequence. -/
theorem ofSequence_is_first {i : Inventory} {target es : List Element} {f : FirstSet}
    (htarget : Element.EveryOf (fun e => e ≠ .utterance [] ∧ e ≠ .placeholder) target)
    (hes : Element.EveryOf (· ≠ .utterance []) es)
    (h : ofSequence i (ofTarget i target) es = .ok f) :
    (f.nullable = true ↔
      [] ∈ Element.languageAll i (Element.languageAll i 1 target) es) ∧
    (∀ c w, c :: w ∈ Element.languageAll i (Element.languageAll i 1 target) es →
      c ∈ f.symbols) ∧
    (Element.EveryOf (fun e => e.Satisfiable i ∧
        (e = .placeholder → Element.EveryOf (Element.Satisfiable i) target)) es →
      ∀ c ∈ f.symbols, ∃ w,
        c :: w ∈ Element.languageAll i (Element.languageAll i 1 target) es) ∧
    ∀ ys g, ofSequence i (ofTarget i target) ys = .ok g →
      ofSequence i (ofTarget i target) (es ++ ys) = .ok (f.followedBy g) := by
  have hplace := htarget.imp fun _ he => he.2
  have hcovers := covers_sequence
    (hes.imp fun _ he => ⟨he, fun _ _ hf => covers_ofTarget htarget hf⟩) h
  have hattained := attained_sequence (p := False)
    (hes.imp fun _ _ _ _ hf => attained_ofTarget hplace nofun hf) nofun h
  refine ⟨⟨hattained.nil_of_nullable, hcovers.nullable_of_nil⟩, fun c w => hcovers.mem_of_cons,
    fun hsatisfiable c hc => ?_, fun ys g hg => ofSequence_append hg h⟩
  have hall := attained_sequence (p := True)
    (hsatisfiable.imp fun _ he hplaced _ hf => attained_ofTarget hplace (fun _ => he.2 hplaced) hf)
    (fun _ => hsatisfiable.imp fun _ he => ⟨he.1, fun hplaced =>
      Element.exists_mem_languageAll ((he.2 hplaced).imp fun _ he => ⟨he, fun _ => ⟨[], rfl⟩⟩)⟩) h
  exact hall.cons_of_mem trivial hc

/-- In `(#)_`, with the target a set of `t` and `ts`, a match begins with the edge or with `t`. -/
theorem ofSequence_is_first_affricates :
    let i : Inventory := { categories := [(['T'], .ofList [['t'], ['t', 's']])] }
    let target : List Element := [.set (.category ['T'])]
    let es : List Element := [.optional [.boundary .start], .placeholder]
    ∃ f, ofSequence i (ofTarget i target) es = .ok f ∧
      f.symbols.toList = [.wordStart, .char 't'] ∧
      [] ∉ Element.languageAll i (Element.languageAll i 1 target) es ∧
      (∀ c, (∃ w, c :: w ∈ Element.languageAll i (Element.languageAll i 1 target) es) ↔
        c ∈ f.symbols) ∧
      ofSequence i (ofTarget i target) (es ++ [.boundary .finish]) =
        .ok (f.followedBy (ofSymbols [.wordEnd])) := by
  intro i target es
  obtain ⟨f, hf⟩ : ∃ f, ofSequence i (ofTarget i target) es = .ok f :=
    exists_ok (by decide +kernel)
  have hvalue : (ofSequence i (ofTarget i target) es).map
      (fun f => (f.symbols.toList, f.nullable)) = .ok ([.wordStart, .char 't'], false) := by
    decide +kernel
  rw [hf] at hvalue
  obtain ⟨hsymbols, hnull⟩ := Prod.mk.inj (Except.ok.inj hvalue)
  have hset : Element.Satisfiable i (.set (.category ['T'])) :=
    ⟨fun _ => ⟨.ofList [['t'], ['t', 's']], rfl, ['t'],
      SortedSet.mem_ofList.mpr (List.mem_cons_self ..), nofun⟩, nofun⟩
  obtain ⟨hnil, hmem, hcons, happend⟩ := @ofSequence_is_first i target es f
    ⟨⟨nofun, nofun⟩, trivial⟩ ⟨⟨nofun, nofun, trivial⟩, nofun, trivial⟩ hf
  refine ⟨f, hf, hsymbols, fun h => ?_, fun c => ⟨fun ⟨w, hw⟩ => hmem c w hw, hcons ?_ c⟩,
    happend _ _ rfl⟩
  · exact Bool.false_ne_true (hnull.symm.trans (hnil.mpr h))
  · exact ⟨⟨⟨⟨nofun, nofun⟩, nofun⟩, ⟨⟨nofun, nofun⟩, nofun⟩, trivial⟩,
      ⟨⟨nofun, nofun⟩, fun _ => ⟨hset, trivial⟩⟩, trivial⟩

end FirstSet

end SoundChange
