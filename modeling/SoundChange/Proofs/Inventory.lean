import SoundChange.Inventory
import SoundChange.Proofs.Error
import Mathlib.Data.List.Induction

/-!
# Histories of declarations

Sets are declared one after the other, and a category that cannot be resolved is refused
(`Inventory.Accepts`). What is looked up by name is what was written under it last (`latest_iff`):
for a feature-set the last one of that name, for a category the last one that was accepted, with the
members that the sets it includes had when it was declared. So an inventory is a snapshot of the
calls before it (`Inventory.snapshot_afterAll`).
-/

namespace SoundChange

section History

variable {α β : Type} {l before after : List α} {a e : α}

/-- An entry of a history is its last one, or it stands in the history before that. -/
theorem concat_eq_append_cons : l ++ [a] = before ++ e :: after ↔
    (before = l ∧ e = a ∧ after = []) ∨ ∃ rest, after = rest ++ [a] ∧ l = before ++ e :: rest := by
  constructor
  · intro h
    rcases List.eq_nil_or_concat after with rfl | ⟨rest, last, rfl⟩
    · obtain ⟨rfl, hlast⟩ := List.append_inj' h rfl
      exact .inl ⟨rfl, (List.singleton_inj.mp hlast).symm, rfl⟩
    · rw [List.concat_eq_append, ← List.cons_append, ← List.append_assoc] at h
      obtain ⟨rfl, hlast⟩ := List.append_inj' h rfl
      exact .inr ⟨rest, by rw [List.singleton_inj.mp hlast, List.concat_eq_append], rfl⟩
  · rintro (⟨rfl, rfl, rfl⟩ | ⟨rest, rfl, rfl⟩)
    · rfl
    · rw [List.append_assoc, List.cons_append]

/-- What a history has written last. It grows at its end, where an entry may write something, which
depends on the entries before it; if it does not, what was there is kept. -/
theorem latest_iff (view : List α → Option β) {written : List α → α → Option β}
    (hnil : view [] = none) (hconcat : ∀ l a, view (l ++ [a]) = (written l a).or (view l)) {b : β} :
    view l = some b ↔ ∃ before a after, l = before ++ a :: after ∧ written before a = some b ∧
      ∀ mid e rest, after = mid ++ e :: rest → written (before ++ a :: mid) e = none := by
  induction l using List.reverseRecOn with
  | nil =>
    rw [hnil]
    refine iff_of_false nofun ?_
    rintro ⟨before, a, after, hl, -⟩
    exact List.append_ne_nil_of_right_ne_nil before (List.cons_ne_nil a after) hl.symm
  | append_singleton l a ih =>
    rw [hconcat, Option.or_eq_some_iff, ih]
    constructor
    · rintro (hlast | ⟨hnone, before, a', after, rfl, hwritten, hkept⟩)
      · -- the last entry has written it, and there is none behind that
        refine ⟨l, a, [], rfl, hlast, fun mid e rest h => ?_⟩
        exact absurd h.symm (List.append_ne_nil_of_right_ne_nil mid (List.cons_ne_nil e rest))
      · refine ⟨before, a', after ++ [a], by simp, hwritten, fun mid e rest h => ?_⟩
        rcases concat_eq_append_cons.mp h with ⟨rfl, rfl, rfl⟩ | ⟨rest, rfl, rfl⟩
        · exact hnone
        · exact hkept mid e rest rfl
    · rintro ⟨before, a', after, hl, hwritten, hkept⟩
      rcases concat_eq_append_cons.mp hl with ⟨rfl, rfl, rfl⟩ | ⟨rest, rfl, rfl⟩
      · exact .inl hwritten
      · refine .inr ⟨hkept rest a [] rfl, before, a', rest, rfl, hwritten, ?_⟩
        rintro mid e rest' rfl
        exact hkept mid e (rest' ++ [a]) (by simp)

end History

namespace Inventory

variable {i : Inventory} {c : Category} {f : FeatureSet} {ref : SetRef} {refs : List SetRef}
  {name : Text} {s acc : SortedSet Text}

/-- A call that declares a set. -/
inductive Call where
  | category (declaration : Category)
  | featureSet (declaration : FeatureSet)

variable {d : Call}

/-- The inventory after a call, and the error that the call reports. The error of `declareCategory`
comes without an inventory: the members are gathered beside the inventory, and entered only when
every set that the category includes has been found. -/
def call (i : Inventory) : Call → Inventory × Option RuleError
  | .category c =>
    match i.declareCategory c with
    | .ok i => (i, none)
    | .error e => (i, some e)
  | .featureSet f => (i.declareFeatureSet f, none)

/-- The inventory after some calls, whether they fail or not. -/
def afterAll (i : Inventory) (calls : List Call) : Inventory :=
  calls.foldl (fun i d => (i.call d).1) i

theorem afterAll_append (i : Inventory) (calls later : List Call) :
    i.afterAll (calls ++ later) = (i.afterAll calls).afterAll later := List.foldl_append

theorem afterAll_concat (i : Inventory) (calls : List Call) (d : Call) :
    i.afterAll (calls ++ [d]) = ((i.afterAll calls).call d).1 := afterAll_append i calls [d]

/-! ## What a call does -/

/-- The segments that a reference stands for, if there is a set of its name. A bare name is that of
a category, or else of a feature-set with all its members. -/
def denoted? (i : Inventory) : SetRef → Option (SortedSet Text)
  | .category name => (i.category? name).or ((i.featureSet? name).map (·.members))
  | .feature present name => (i.featureSet? name).map (·.membersFor present)

/-- A category can be declared: there is a set for each of its includes, and for its own name there
is a category if it includes that. -/
structure Accepts (i : Inventory) (c : Category) : Prop where
  resolves : ∀ ref ∈ c.includes, ∃ s, i.denoted? ref = some s
  not_cyclic : ¬ (.category c.name ∈ c.includes ∧ i.category? c.name = none)

/-- A category lists the segment, or includes a set that has it. -/
def Lists (i : Inventory) (c : Category) (x : Text) : Prop :=
  x ∈ c.members ∨ ∃ ref ∈ c.includes, ∃ s, i.denoted? ref = some s ∧ x ∈ s

theorem members_eq_ok_iff : i.members ref = .ok s ↔ i.denoted? ref = some s := by
  cases ref with
  | category name =>
    rw [members, denoted?]
    cases i.category? name with
    | some members => simp
    | none => cases i.featureSet? name <;> simp
  | feature present name =>
    rw [members, denoted?, featureSet]
    cases i.featureSet? name <;> simp [Except.map]

theorem resolve_cons_eq_ok_iff : i.resolve name acc (ref :: refs) = .ok s ↔
    ¬ (ref = .category name ∧ i.category? name = none) ∧
      ∃ t, i.denoted? ref = some t ∧ i.resolve name (acc.union t) refs = .ok s := by
  simp only [resolve, Option.isNone_iff_eq_none]
  split
  · rename_i hcyclic
    exact iff_of_false nofun fun h => h.1 hcyclic
  · rename_i hcyclic
    rw [and_iff_right hcyclic]
    cases hmembers : i.members ref with
    | ok t =>
      rw [members_eq_ok_iff.mp hmembers]
      simp
    | error e =>
      refine iff_of_false nofun ?_
      rintro ⟨t, ht, -⟩
      rw [members_eq_ok_iff.mpr ht] at hmembers
      cases hmembers

theorem exists_resolve_iff : (∃ s, i.resolve name acc refs = .ok s) ↔
    (∀ ref ∈ refs, ∃ s, i.denoted? ref = some s) ∧
      ¬ (.category name ∈ refs ∧ i.category? name = none) := by
  induction refs generalizing acc with
  | nil => simp [resolve]
  | cons ref refs ih =>
    rw [List.forall_mem_cons, List.mem_cons, or_and_right, not_or]
    simp only [resolve_cons_eq_ok_iff]
    constructor
    · rintro ⟨s, hcyclic, t, ht, hs⟩
      obtain ⟨hrefs, hother⟩ := ih.mp ⟨s, hs⟩
      exact ⟨⟨⟨t, ht⟩, hrefs⟩, fun h => hcyclic ⟨h.1.symm, h.2⟩, hother⟩
    · rintro ⟨⟨⟨t, ht⟩, hrefs⟩, hcyclic, hother⟩
      obtain ⟨s, hs⟩ := ih.mpr ⟨hrefs, hother⟩
      exact ⟨s, fun h => hcyclic ⟨h.1.symm, h.2⟩, t, ht, hs⟩

theorem mem_of_resolve_eq_ok (h : i.resolve name acc refs = .ok s) {x : Text} :
    x ∈ s ↔ x ∈ acc ∨ ∃ ref ∈ refs, ∃ t, i.denoted? ref = some t ∧ x ∈ t := by
  induction refs generalizing acc with
  | nil =>
    cases h
    simp
  | cons ref refs ih =>
    obtain ⟨-, t, ht, hrefs⟩ := resolve_cons_eq_ok_iff.mp h
    rw [ih hrefs, SortedSet.mem_union, or_assoc]
    simp [ht]

/-- A category is accepted if its includes can be resolved. -/
theorem accepts_iff : i.Accepts c ↔ ∃ s, i.resolve c.name c.members c.includes = .ok s :=
  ⟨fun h => exists_resolve_iff.mpr ⟨h.resolves, h.not_cyclic⟩,
    fun h => ⟨(exists_resolve_iff.mp h).1, (exists_resolve_iff.mp h).2⟩⟩

/-- The members of an accepted category are those that it lists. -/
theorem resolve_category_iff : i.resolve c.name c.members c.includes = .ok s ↔
    i.Accepts c ∧ ∀ x, x ∈ s ↔ i.Lists c x := by
  constructor
  · intro h
    exact ⟨accepts_iff.mpr ⟨s, h⟩, fun x => mem_of_resolve_eq_ok h⟩
  · rintro ⟨haccepts, hmem⟩
    obtain ⟨t, ht⟩ := accepts_iff.mp haccepts
    have hst : s = t := SortedSet.ext fun x => (hmem x).trans (mem_of_resolve_eq_ok ht).symm
    rwa [hst]

/-- A category is declared with its members, or the call fails and nothing changes. -/
theorem call_category_cases (i : Inventory) (c : Category) :
    (∃ s, i.resolve c.name c.members c.includes = .ok s ∧
      i.call (.category c) = ({ i with categories := (c.name, s) :: i.categories }, none)) ∨
    ∃ e, i.resolve c.name c.members c.includes = .error e ∧
      i.call (.category c) = (i, some e) := by
  simp only [call, declareCategory]
  cases i.resolve c.name c.members c.includes with
  | ok s => exact .inl ⟨s, rfl, rfl⟩
  | error e => exact .inr ⟨e, rfl, rfl⟩

/-- A call succeeds unless it declares a category that is not accepted. -/
theorem call_eq_none_iff : (i.call d).2 = none ↔ ∀ c, d = .category c → i.Accepts c := by
  cases d with
  | featureSet f => exact iff_of_true rfl nofun
  | category c =>
    simp only [Call.category.injEq, forall_eq', accepts_iff]
    rcases call_category_cases i c with ⟨s, hs, hcall⟩ | ⟨e, he, hcall⟩
    · simp [hcall, hs]
    · simp [hcall, he]

/-- A call that fails changes nothing. -/
theorem call_of_error {e : RuleError} (h : (i.call d).2 = some e) : (i.call d).1 = i := by
  cases d with
  | featureSet f => cases h
  | category c =>
    rcases call_category_cases i c with ⟨s, -, hcall⟩ | ⟨_, -, hcall⟩
    · rw [hcall] at h
      cases h
    · rw [hcall]

/-! ## What a call writes -/

/-- The members that a call gives to the category of some name. -/
def categoryWritten? (i : Inventory) (name : Text) : Call → Option (SortedSet Text)
  | .category c =>
    if c.name = name then (i.resolve c.name c.members c.includes).toOption else none
  | .featureSet _ => none

/-- The feature-set of some name that a call declares. -/
def featureSetWritten? (name : Text) : Call → Option FeatureSet
  | .category _ => none
  | .featureSet f => if f.name = name then some f else none

theorem category?_call (d : Call) :
    (i.call d).1.category? name = (i.categoryWritten? name d).or (i.category? name) := by
  cases d with
  | featureSet f => rfl
  | category c =>
    rw [categoryWritten?]
    rcases call_category_cases i c with ⟨s, hs, hcall⟩ | ⟨e, he, hcall⟩
    · rw [hcall, hs, category?, List.find?_cons]
      by_cases hname : c.name = name <;> simp [hname, Except.toOption, category?]
    · rw [hcall, he]
      simp [Except.toOption]

theorem featureSet?_call (d : Call) :
    (i.call d).1.featureSet? name = (featureSetWritten? name d).or (i.featureSet? name) := by
  cases d with
  | featureSet f =>
    rw [featureSetWritten?, call, declareFeatureSet, featureSet?, List.find?_cons]
    by_cases hname : f.name = name <;> simp [hname, featureSet?]
  | category c =>
    rcases call_category_cases i c with ⟨s, -, hcall⟩ | ⟨e, -, hcall⟩
    · rw [hcall]
      rfl
    · rw [hcall]
      rfl

theorem categoryWritten?_eq_some_iff : i.categoryWritten? name d = some s ↔
    ∃ c, d = .category c ∧ c.name = name ∧ i.Accepts c ∧ ∀ x, x ∈ s ↔ i.Lists c x := by
  cases d with
  | featureSet f => simp [categoryWritten?]
  | category c =>
    simp only [← resolve_category_iff, Call.category.injEq, exists_eq_left', categoryWritten?]
    by_cases hname : c.name = name
    · rw [if_pos hname, and_iff_right hname]
      cases i.resolve c.name c.members c.includes <;> simp [Except.toOption]
    · simp [hname]

theorem categoryWritten?_eq_none_iff : i.categoryWritten? name d = none ↔
    ∀ c, d = .category c → c.name = name → ¬ i.Accepts c := by
  rw [Option.eq_none_iff_forall_ne_some]
  constructor
  · rintro h c rfl hname haccepts
    obtain ⟨s, hs⟩ := accepts_iff.mp haccepts
    exact h s (categoryWritten?_eq_some_iff.mpr ⟨c, rfl, hname, resolve_category_iff.mp hs⟩)
  · intro h s hs
    obtain ⟨c, hd, hname, haccepts, -⟩ := categoryWritten?_eq_some_iff.mp hs
    exact h c hd hname haccepts

theorem featureSetWritten?_eq_some_iff :
    featureSetWritten? name d = some f ↔ d = .featureSet f ∧ f.name = name := by
  cases d with
  | category c => simp [featureSetWritten?]
  | featureSet g =>
    rw [featureSetWritten?, Call.featureSet.injEq]
    by_cases hname : g.name = name
    · rw [if_pos hname, Option.some.injEq]
      exact ⟨fun h => ⟨h, h ▸ hname⟩, And.left⟩
    · rw [if_neg hname]
      exact iff_of_false nofun fun h => hname (h.1 ▸ h.2)

theorem featureSetWritten?_eq_none_iff :
    featureSetWritten? name d = none ↔ ∀ f, d = .featureSet f → f.name ≠ name := by
  cases d <;> simp [featureSetWritten?]

/-! ## The sets of a history -/

/-- A name that no call declares a category of has the members that it had. -/
theorem category?_afterAll_append {calls later : List Call}
    (h : ∀ c, .category c ∈ later → c.name ≠ name) :
    (i.afterAll (calls ++ later)).category? name = (i.afterAll calls).category? name := by
  induction later using List.reverseRecOn with
  | nil => rw [List.append_nil]
  | append_singleton later d ih =>
    have hnone : ∀ j : Inventory, j.categoryWritten? name d = none := fun j =>
      categoryWritten?_eq_none_iff.mpr fun c hd hname => absurd hname (h c (by simp [hd]))
    rw [← List.append_assoc, afterAll_concat, category?_call, hnone, Option.none_or]
    exact ih fun c hc => h c (List.mem_append_left _ hc)

/-- Among some calls, `c` is the last declaration of a category of some name that was accepted. -/
structure LastAccepted (name : Text) (before : List Call) (c : Category) (after : List Call) :
    Prop where
  name_eq : c.name = name
  accepts : (afterAll {} before).Accepts c
  refused : ∀ mid c' rest, after = mid ++ .category c' :: rest → c'.name = name →
    ¬ (afterAll {} (before ++ .category c :: mid)).Accepts c'

/-- What an inventory shows after a history of calls. -/
structure Snapshot (calls : List Call) : Prop where
  /-- A category is the last one of its name that was accepted, and lists what it did then. -/
  category : ∀ name s, (afterAll {} calls).category? name = some s ↔
    ∃ before c after, calls = before ++ .category c :: after ∧ LastAccepted name before c after ∧
      ∀ x, x ∈ s ↔ (afterAll {} before).Lists c x
  /-- A feature-set is the last one of its name. -/
  featureSet : ∀ name f, (afterAll {} calls).featureSet? name = some f ↔
    ∃ before after, calls = before ++ .featureSet f :: after ∧ f.name = name ∧
      ∀ f', .featureSet f' ∈ after → f'.name ≠ name
  /-- The next call succeeds, unless it declares a category that is not accepted. -/
  succeeds : ∀ d, ((afterAll {} calls).call d).2 = none ↔
    ∀ c, d = .category c → (afterAll {} calls).Accepts c
  /-- If the next call fails, it changes nothing. -/
  fails : ∀ d e, ((afterAll {} calls).call d).2 = some e →
    ((afterAll {} calls).call d).1 = afterAll {} calls
  /-- Calls that declare no category of a name leave its members, whatever else they declare. -/
  kept : ∀ name later, (∀ c, .category c ∈ later → c.name ≠ name) →
    (afterAll {} (calls ++ later)).category? name = (afterAll {} calls).category? name

theorem category?_afterAll_iff {calls : List Call} : (afterAll {} calls).category? name = some s ↔
    ∃ before c after, calls = before ++ .category c :: after ∧ LastAccepted name before c after ∧
      ∀ x, x ∈ s ↔ (afterAll {} before).Lists c x := by
  rw [latest_iff (fun calls => (afterAll {} calls).category? name) rfl
    fun before d => by rw [afterAll_concat, category?_call]]
  simp only [categoryWritten?_eq_some_iff, categoryWritten?_eq_none_iff]
  constructor
  · rintro ⟨before, _, after, hcalls, ⟨c, rfl, hname, haccepts, hmem⟩, hrefused⟩
    refine ⟨before, c, after, hcalls, ⟨hname, haccepts, ?_⟩, hmem⟩
    exact fun mid c' rest hafter => hrefused mid _ rest hafter c' rfl
  · rintro ⟨before, c, after, hcalls, hlast, hmem⟩
    refine ⟨before, _, after, hcalls, ⟨c, rfl, hlast.name_eq, hlast.accepts, hmem⟩, ?_⟩
    rintro mid _ rest hafter c' rfl
    exact hlast.refused mid c' rest hafter

theorem featureSet?_afterAll_iff {calls : List Call} :
    (afterAll {} calls).featureSet? name = some f ↔
      ∃ before after, calls = before ++ .featureSet f :: after ∧ f.name = name ∧
        ∀ f', .featureSet f' ∈ after → f'.name ≠ name := by
  rw [latest_iff (fun calls => (afterAll {} calls).featureSet? name) rfl
    fun before d => by rw [afterAll_concat, featureSet?_call]]
  simp only [featureSetWritten?_eq_some_iff, featureSetWritten?_eq_none_iff]
  constructor
  · rintro ⟨before, _, after, hcalls, ⟨rfl, hname⟩, hkept⟩
    refine ⟨before, after, hcalls, hname, fun f' hf' => ?_⟩
    obtain ⟨mid, rest, hafter⟩ := List.append_of_mem hf'
    exact hkept mid _ rest hafter f' rfl
  · rintro ⟨before, after, hcalls, hname, hkept⟩
    refine ⟨before, _, after, hcalls, ⟨rfl, hname⟩, ?_⟩
    rintro mid _ rest rfl f' rfl
    exact hkept f' (List.mem_append_right mid (List.mem_cons_self ..))

/-- After any calls, an inventory is a snapshot of what was declared by them. -/
theorem snapshot_afterAll (calls : List Call) : Snapshot calls where
  category _ _ := category?_afterAll_iff
  featureSet _ _ := featureSet?_afterAll_iff
  succeeds _ := call_eq_none_iff
  fails _ _ := call_of_error
  kept _ _ := category?_afterAll_append

/-- When `F` is declared again, `V` keeps the member that it took over from it. -/
example : (afterAll {} [.category ((Category.new ['F']).addMember ['e']),
    .category ((Category.new ['V']).addInclude (.category ['F'])),
    .category ((Category.new ['F']).addMember ['i'])]).category? ['V'] =
      some (SortedSet.empty.insert ['e']) := by
  decide

end Inventory

end SoundChange
