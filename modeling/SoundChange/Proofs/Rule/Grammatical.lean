import SoundChange.Proofs.Rule.WellFormed
import SoundChange.Statement.Reader
import Mathlib

/-!
# Grammatical rules

What the grammar of rule files asks of a rule, at every depth of its groups: `Rule.Grammatical`.
The edge of a boundary depends on where it stands, so it is asked of an occurrence
(`Element.Occurs`), which is leading if nothing can come before it. `Element.settleAll` gives
boundaries the edges that are asked for (`Element.settled_settleAll`), and changes nothing where
they have them (`Element.settleAll_eq_self`).
-/

namespace SoundChange

namespace Element

/-- A boundary stands nowhere in a sequence but at its ends. -/
def BoundariesAtEnds (es : List Element) : Prop :=
  ∀ i e, es[i]? = some e → e.isBoundary = true → i = 0 ∨ i + 1 = es.length

/-- What the grammar asks of one element, those within it apart. Bare words that are `known` stand
for categories, so they are no texts. -/
def Grammatical (known : List Text) : Element → Prop
  | utterance text => text ∉ known
  | compound refs => 2 ≤ refs.length
  | optional body => ∀ e ∈ body, e.isBoundary = false
  | disjunction branches => 2 ≤ branches.length ∧ ∀ branch ∈ branches, BoundariesAtEnds branch
  | _ => True

/-- An element stands in a sequence or in a group of it. It is leading if it is the first element or
on the chain of first elements of nested groups that starts there. -/
inductive Occurs : Bool → List Element → Element → Prop where
  | here {es : List Element} {i : Nat} {e : Element} (h : es[i]? = some e) : Occurs (i == 0) es e
  | optional {es body : List Element} {i : Nat} {leading : Bool} {e : Element}
    (h : es[i]? = some (.optional body)) (he : Occurs leading body e) :
    Occurs (i == 0 && leading) es e
  | disjunction {es branch : List Element} {branches : List (List Element)} {i : Nat}
    {leading : Bool} {e : Element} (h : es[i]? = some (.disjunction branches))
    (hbranch : branch ∈ branches) (he : Occurs leading branch e) :
    Occurs (i == 0 && leading) es e

end Element

/-- A rule that the grammar allows where some bare words are known as categories. -/
structure Rule.Grammatical (known : List Text) (rule : Rule) : Prop where
  target_ne_nil : rule.target ≠ []
  target : Element.EveryOf
    (fun e => e.Grammatical known ∧ e.isBoundary = false ∧ e ≠ .placeholder) rule.target
  result : ∀ e ∈ rule.result, e.Plain ∧ e.Grammatical known
  environment : Element.EveryOf (Element.Grammatical known) rule.environment
  /-- There is one placeholder in all, and it stands in no group. -/
  placeholder : ∃ before after, rule.environment = before ++ .placeholder :: after ∧
    Element.EveryOf (· ≠ .placeholder) (before ++ after)
  atEnds : Element.BoundariesAtEnds rule.environment
  edges : ∀ leading edge, Element.Occurs leading rule.environment (.boundary edge) →
    (edge = .start ↔ leading = true)

namespace Element

variable {es : List Element} {e : Element} {first : Bool} {i : Nat} {known : List Text}
  {p : Element → Prop}

/-! ## Boundaries at the ends -/

theorem hasInnerBoundary_eq_false : hasInnerBoundary es = false ↔ BoundariesAtEnds es := by
  have hinner (i : Nat) :
      es.tail.dropLast[i]? = if i + 2 < es.length then es[i + 1]? else none := by
    rw [List.getElem?_dropLast, List.length_tail, List.getElem?_tail]
    by_cases h : i + 2 < es.length
    · rw [if_pos h, if_pos (by omega)]
    · rw [if_neg h, if_neg (by omega)]
  rw [hasInnerBoundary, List.any_eq_false]
  constructor
  · intro h i e hi hboundary
    have hlt : i < es.length := (List.getElem?_eq_some_iff.mp hi).1
    by_contra hends
    obtain ⟨j, rfl⟩ : ∃ j, i = j + 1 := ⟨i - 1, by omega⟩
    refine h e (List.mem_of_getElem? (i := j) ?_) hboundary
    rw [hinner, if_pos (by omega), hi]
  · intro h e he hboundary
    obtain ⟨i, hi⟩ := List.getElem?_of_mem he
    rw [hinner] at hi
    split at hi
    · have := h (i + 1) e hi hboundary
      omega
    · cases hi

/-! ## Edges -/

theorem getElem?_settleAll : ∀ (first : Bool) (es : List Element) (i : Nat),
    (settleAll first es)[i]? = es[i]?.map (settle (first && i == 0))
  | first, [], i => by cases i <;> rfl
  | first, e :: es, 0 => by simp [settleAll]
  | first, e :: es, i + 1 => by
    rw [settleAll, List.getElem?_cons_succ, List.getElem?_cons_succ, getElem?_settleAll]
    simp

@[simp] theorem length_settleAll : ∀ (first : Bool) (es : List Element),
    (settleAll first es).length = es.length
  | _, [] => rfl
  | _, _ :: es => congrArg (· + 1) (length_settleAll false es)

theorem settleBranches_eq_map (first : Bool) (branches : List (List Element)) :
    settleBranches first branches = branches.map (settleAll first) := by
  induction branches with
  | nil => rfl
  | cons branch branches ih => rw [settleBranches, ih, List.map_cons]

@[simp] theorem isBoundary_settle (first : Bool) (e : Element) :
    (e.settle first).isBoundary = e.isBoundary := by
  cases e <;> rfl

theorem forall_mem_settleAll (hp : ∀ first e, p (settle first e) ↔ p e) :
    (∀ e ∈ settleAll first es, p e) ↔ ∀ e ∈ es, p e := by
  induction es generalizing first with
  | nil => rfl
  | cons e es ih => rw [settleAll, List.forall_mem_cons, List.forall_mem_cons, hp, ih]

theorem BoundariesAtEnds.settleAll_iff :
    BoundariesAtEnds (settleAll first es) ↔ BoundariesAtEnds es := by
  simp only [BoundariesAtEnds, getElem?_settleAll, length_settleAll, Option.map_eq_some_iff]
  constructor
  · exact fun h i e hi hboundary => h i _ ⟨e, hi, rfl⟩ (by rwa [isBoundary_settle])
  · rintro h i _ ⟨e, hi, rfl⟩ hboundary
    exact h i e hi (by rwa [isBoundary_settle] at hboundary)

/-- The edges of boundaries do not matter to the grammar of an element. -/
theorem grammatical_settle_iff (first : Bool) (e : Element) :
    (e.settle first).Grammatical known ↔ e.Grammatical known := by
  cases e with
  | optional body =>
    exact forall_mem_settleAll (p := fun e => e.isBoundary = false) fun first e => by
      rw [isBoundary_settle]
  | disjunction branches =>
    simp only [settle, Grammatical, settleBranches_eq_map, List.length_map, List.forall_mem_map,
      BoundariesAtEnds.settleAll_iff]
  | _ => rfl

mutual

theorem every_settle_iff (hp : ∀ first e, p (settle first e) ↔ p e) (first : Bool) :
    ∀ e : Element, (e.settle first).Every p ↔ e.Every p
  | utterance _ => .rfl
  | set _ => .rfl
  | compound _ => .rfl
  | optional body => and_congr (hp first (optional body)) (everyOf_settleAll_iff hp first body)
  | disjunction branches =>
    and_congr (hp first (disjunction branches)) (everyAmong_settleBranches_iff hp first branches)
  | boundary edge => hp first (boundary edge)
  | placeholder => .rfl

theorem everyOf_settleAll_iff (hp : ∀ first e, p (settle first e) ↔ p e) (first : Bool) :
    ∀ es : List Element, EveryOf p (settleAll first es) ↔ EveryOf p es
  | [] => .rfl
  | e :: es => and_congr (every_settle_iff hp first e) (everyOf_settleAll_iff hp false es)

theorem everyAmong_settleBranches_iff (hp : ∀ first e, p (settle first e) ↔ p e) (first : Bool) :
    ∀ branches : List (List Element),
      EveryAmong p (settleBranches first branches) ↔ EveryAmong p branches
  | [] => .rfl
  | branch :: branches =>
    and_congr (everyOf_settleAll_iff hp first branch)
      (everyAmong_settleBranches_iff hp first branches)

end

theorem settle_eq_placeholder_iff (first : Bool) (e : Element) :
    e.settle first = .placeholder ↔ e = .placeholder := by
  cases e <;> simp [settle]

theorem isPlaceholder_eq_true : e.isPlaceholder = true ↔ e = .placeholder := by
  cases e <;> simp [isPlaceholder]

theorem countP_settleAll {f : Element → Bool} (hf : ∀ first e, f (settle first e) = f e) :
    ∀ (first : Bool) (es : List Element), (settleAll first es).countP f = es.countP f
  | _, [] => rfl
  | first, e :: es => by
    rw [settleAll, List.countP_cons, List.countP_cons, hf, countP_settleAll hf]

/-- The only placeholder of a sequence, if there is none in its groups. -/
theorem exists_placeholder (hcount : es.countP isPlaceholder = 1)
    (hes : ∀ e ∈ es, e = .placeholder ∨ e.Every (· ≠ .placeholder)) :
    ∃ before after, es = before ++ .placeholder :: after ∧
      EveryOf (· ≠ .placeholder) (before ++ after) := by
  obtain ⟨e, he, hplace⟩ := List.countP_pos_iff.mp (Nat.lt_of_lt_of_eq Nat.one_pos hcount.symm)
  rw [isPlaceholder_eq_true] at hplace
  subst hplace
  obtain ⟨before, after, rfl⟩ := List.append_of_mem he
  refine ⟨before, after, rfl, everyOf_iff.mpr fun e he => ?_⟩
  have hnone : (before ++ after).countP isPlaceholder = 0 := by
    rw [List.countP_append, List.countP_cons_of_pos rfl] at hcount
    rw [List.countP_append]
    omega
  refine (hes e ?_).resolve_left fun hplace => ?_
  · simp only [List.mem_append, List.mem_cons] at he ⊢
    exact he.imp_right .inr
  · exact List.countP_eq_zero.mp hnone e he (isPlaceholder_eq_true.mpr hplace)

theorem countP_isPlaceholder (h : ∃ before after, es = before ++ .placeholder :: after ∧
    EveryOf (· ≠ .placeholder) (before ++ after)) : es.countP isPlaceholder = 1 := by
  obtain ⟨before, after, rfl, hes⟩ := h
  rw [everyOf_iff] at hes
  have hnone : (before ++ after).countP isPlaceholder = 0 :=
    List.countP_eq_zero.mpr fun e he hplace => (hes e he).self (isPlaceholder_eq_true.mp hplace)
  rw [List.countP_append] at hnone
  rw [List.countP_append, List.countP_cons_of_pos rfl]
  omega

theorem Occurs.head {leading : Bool} {x : Element} (h : Occurs leading [e] x) :
    Occurs leading (e :: es) x := by
  have hzero {i : Nat} {y : Element} (hi : [e][i]? = some y) : i = 0 ∧ (e :: es)[0]? = some y := by
    cases i with
    | zero => exact ⟨rfl, hi⟩
    | succ i => simp at hi
  cases h with
  | here h =>
    obtain ⟨rfl, h⟩ := hzero h
    exact .here h
  | optional h hx =>
    obtain ⟨rfl, h⟩ := hzero h
    exact .optional h hx
  | disjunction h hbranch hx =>
    obtain ⟨rfl, h⟩ := hzero h
    exact .disjunction h hbranch hx

theorem Occurs.tail {leading : Bool} {x : Element} (h : Occurs leading es x) :
    Occurs false (e :: es) x := by
  cases h with
  | @here _ i _ h => exact .here (i := i + 1) h
  | @optional _ _ i _ _ h hx => exact .optional (i := i + 1) h hx
  | @disjunction _ _ _ i _ _ h hbranch hx => exact .disjunction (i := i + 1) h hbranch hx

/-- The boundaries of a sequence have the edges of their places, if `first` says whether something
can come before it. -/
def Settled (first : Bool) (es : List Element) : Prop :=
  ∀ leading edge, Occurs leading es (.boundary edge) → (edge = .start ↔ (first && leading) = true)

/-- A boundary is settled by where it stands. -/
theorem settled_settleAll (first : Bool) (es : List Element) :
    Settled first (settleAll first es) := by
  intro leading edge h
  generalize hes : settleAll first es = settled at h
  generalize he : Element.boundary edge = e at h
  induction h generalizing first es with
  | here h =>
    subst hes he
    rw [getElem?_settleAll, Option.map_eq_some_iff] at h
    obtain ⟨e, -, he⟩ := h
    cases e <;> cases he
    split <;> simp_all
  | optional h _ ih =>
    subst hes he
    rw [getElem?_settleAll, Option.map_eq_some_iff] at h
    obtain ⟨e, -, he⟩ := h
    cases e <;> cases he
    rw [ih _ _ rfl rfl, Bool.and_assoc]
  | disjunction h hbranch _ ih =>
    subst hes he
    rw [getElem?_settleAll, Option.map_eq_some_iff] at h
    obtain ⟨e, -, he⟩ := h
    cases e <;> cases he
    rw [settleBranches_eq_map, List.mem_map] at hbranch
    obtain ⟨branch, -, hbranch⟩ := hbranch
    rw [ih _ _ hbranch rfl, Bool.and_assoc]

theorem Settled.body {body : List Element} (h : Settled first [optional body]) :
    Settled first body := fun leading edge hedge =>
  h leading edge (by simpa using Occurs.optional (i := 0) rfl hedge)

theorem Settled.branch {branches : List (List Element)} (h : Settled first [disjunction branches]) :
    ∀ branch ∈ branches, Settled first branch := fun _ hbranch leading edge hedge =>
  h leading edge (by simpa using Occurs.disjunction (i := 0) rfl hbranch hedge)

theorem Settled.head (h : Settled first (e :: es)) : Settled first [e] :=
  fun leading edge hedge => h leading edge hedge.head

theorem Settled.tail (h : Settled first (e :: es)) : Settled false es :=
  fun _ edge hedge => by simpa using h false edge hedge.tail

mutual

theorem settle_eq_self : ∀ {e : Element} {first : Bool}, Settled first [e] → e.settle first = e
  | utterance _, _, _ => rfl
  | set _, _, _ => rfl
  | compound _, _, _ => rfl
  | optional _, _, h => congrArg optional (settleAll_eq_self h.body)
  | disjunction _, _, h => congrArg disjunction (settleBranches_eq_self h.branch)
  | boundary edge, first, h => by
    have hedge := h true edge (.here (i := 0) rfl)
    cases edge <;> cases first <;> simp_all [settle]
  | placeholder, _, _ => rfl

/-- Nothing is left to settle where every boundary has the edge of its place. -/
theorem settleAll_eq_self : ∀ {es : List Element} {first : Bool}, Settled first es →
    settleAll first es = es
  | [], _, _ => rfl
  | _ :: _, _, h => by rw [settleAll, settle_eq_self h.head, settleAll_eq_self h.tail]

theorem settleBranches_eq_self : ∀ {branches : List (List Element)} {first : Bool},
    (∀ branch ∈ branches, Settled first branch) → settleBranches first branches = branches
  | [], _, _ => rfl
  | branch :: branches, _, h => by
    rw [List.forall_mem_cons] at h
    rw [settleBranches, settleAll_eq_self h.1, settleBranches_eq_self h.2]

end

theorem everyOf_of_occurs {leading : Bool} {x : Element} (hes : EveryOf p es)
    (h : Occurs leading es x) : p x := by
  induction h with
  | here h => exact (everyOf_iff.mp hes _ (List.mem_of_getElem? h)).self
  | optional h _ ih => exact ih (everyOf_iff.mp hes _ (List.mem_of_getElem? h)).2
  | disjunction h hbranch _ ih =>
    exact ih (everyAmong_iff.mp (everyOf_iff.mp hes _ (List.mem_of_getElem? h)).2 _ hbranch)

/-- Nothing is to be settled where there is no boundary. -/
theorem settleAll_of_no_boundary (hes : EveryOf (fun e => e.isBoundary = false) es) :
    settleAll first es = es :=
  settleAll_eq_self fun _ _ hedge => absurd (everyOf_of_occurs hes hedge) nofun

mutual

theorem settle_settle (first again : Bool) : ∀ e : Element,
    (e.settle first).settle again = e.settle again
  | utterance _ => rfl
  | set _ => rfl
  | compound _ => rfl
  | optional body => congrArg optional (settleAll_settleAll first again body)
  | disjunction branches =>
    congrArg disjunction (settleBranches_settleBranches first again branches)
  | boundary _ => rfl
  | placeholder => rfl

/-- Only the last settling counts. -/
theorem settleAll_settleAll (first again : Bool) : ∀ es : List Element,
    settleAll again (settleAll first es) = settleAll again es
  | [] => rfl
  | e :: es =>
    congrArg₂ List.cons (settle_settle first again e) (settleAll_settleAll false false es)

theorem settleBranches_settleBranches (first again : Bool) : ∀ branches : List (List Element),
    settleBranches again (settleBranches first branches) = settleBranches again branches
  | [] => rfl
  | branch :: branches => congrArg₂ List.cons (settleAll_settleAll first again branch)
      (settleBranches_settleBranches first again branches)

end

end Element

end SoundChange
