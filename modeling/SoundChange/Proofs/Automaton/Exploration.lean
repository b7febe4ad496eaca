import SoundChange.Automaton.Table
import SoundChange.Proofs.Automaton.Closure
import SoundChange.Proofs.Automaton.Register
import SoundChange.Proofs.Error
import Mathlib.Data.List.Nodup

/-!
# What exploring a table leaves behind

`Table.explore` goes through the states that it has found while `Table.moves` finds more of them.
What holds throughout is kept apart by what it is about:

* `Tracks`: the states found are distinct, and each stands for a closure;
* `Later`: what has been found and numbered stays so;
* `Row.Exact`: a row says of its state's closure whether it is final and where each symbol leads.

`Table.explore_spec` is the run of the loop, and `Table.exact_of_ofAutomaton` what it comes to: in
a table all rows are exact.
-/

namespace SoundChange

theorem prefix_concat {α : Type} {l m : List α} {x : α} (h : l <+: m) (hx : m[l.length]? = some x) :
    l ++ [x] <+: m := by
  obtain ⟨rest, rfl⟩ := h
  rw [List.getElem?_append_right (Nat.le_refl _), Nat.sub_self] at hx
  cases rest with
  | nil => cases hx
  | cons y rest =>
    cases hx
    exact ⟨rest, List.append_assoc ..⟩

section Lookup

variable {α β : Type} [DecidableEq α] {l : List (α × β)} {k : α} {v : β}

theorem mem_of_lookup (h : l.lookup k = some v) : (k, v) ∈ l := by
  obtain ⟨l₁, l₂, rfl, -⟩ := List.lookup_eq_some_iff.mp h
  exact List.mem_append_right _ (List.mem_cons_self ..)

theorem lookup_of_mem (hl : (l.map Prod.fst).Nodup) (h : (k, v) ∈ l) : l.lookup k = some v := by
  obtain ⟨l₁, l₂, rfl⟩ := List.append_of_mem h
  refine List.lookup_eq_some_iff.mpr ⟨l₁, l₂, rfl, fun p hp => bne_iff_ne.mpr ?_⟩
  rw [List.map_append, List.nodup_append] at hl
  exact (hl.2.2 p.1 (List.mem_map_of_mem hp) k (List.mem_cons_self ..)).symm

theorem nodup_keys_toList {α : Type} [Ranked α] (m : RankedMap α β) :
    (m.toList.map Prod.fst).Nodup := by
  rw [Std.TreeMap.map_fst_toList_eq_keys]
  exact Std.TreeMap.nodup_keys

end Lookup

namespace Automaton

variable {a : Automaton} {s : StateId} {c : Symbol} {members set : List StateId}

/-- The states that matter among those to which a symbol leads from some states. -/
def successors (a : Automaton) (members : List StateId) (c : Symbol) : List StateId :=
  a.closure ((a.targets members)[c]?.getD [])

theorem mem_successors (h : a.edges.size = a.size) : s ∈ a.successors members c ↔
    a.matters s = true ∧ ∃ p ∈ members, ∃ q, ⟨c, q⟩ ∈ a.edgesOf p ∧ a.Reads q [] s := by
  rw [successors, mem_closure h, targets, RankedMap.getD_group]
  refine and_congr_right fun _ => ?_
  simp only [List.mem_filterMap, List.mem_map, List.mem_flatMap, Option.ite_none_right_eq_some,
    Option.some.injEq]
  constructor
  · rintro ⟨q, ⟨_, ⟨⟨c, q⟩, ⟨p, hp, he⟩, rfl⟩, rfl, rfl⟩, hs⟩
    exact ⟨p, hp, q, he, hs⟩
  · rintro ⟨p, hp, q, he, hs⟩
    exact ⟨q, ⟨_, ⟨_, ⟨p, hp, he⟩, rfl⟩, rfl, rfl⟩, hs⟩

theorem closure_nil : a.closure [] = [] := by
  rw [closure, closureAlong, reach]
  rfl

/-- The set is the closure of some states, and not empty. -/
def IsClosure (a : Automaton) (set : List StateId) : Prop :=
  set ≠ [] ∧ ∃ seeds, set = a.closure seeds

theorem IsClosure.lt_size (h : a.edges.size = a.size) (hset : a.IsClosure set) (hs : s ∈ set) :
    s < a.size := by
  obtain ⟨-, seeds, rfl⟩ := hset
  exact lt_size_of_matters h ((mem_closure h).mp hs).1

end Automaton

/-- What a row says of its state is right, among the states of a list. -/
structure Row.Exact (a : Automaton) (register : MergeRegister) (states : List StateId) (r : Row) :
    Prop where
  closure : a.IsClosure r.members
  holds : register.Holds r.id r.members
  isFinal_eq : r.isFinal = r.members.any a.isFinal
  moves_none : ∀ {c : Symbol}, c = .lambda ∨ a.successors r.members c = [] →
    r.moves.lookup c = none
  moves_some : ∀ {c : Symbol}, c ≠ .lambda → a.successors r.members c ≠ [] →
    ∃ id ∈ states, r.moves.lookup c = some id ∧ register.Holds id (a.successors r.members c)

namespace Found

variable {limit : Nat} {found found' : Found limit} {id x : StateId}

theorem mem_known_empty (id : StateId) :
    id ∈ (∅ : RankedSet StateId) ↔ id ∈ (#[] : Array StateId) := by
  simp

/-- No state is found yet. -/
def empty (limit : Nat) : Found limit :=
  ⟨#[], ∅, Nat.zero_le limit, mem_known_empty⟩

@[simp] theorem states_empty : (empty limit).states = #[] := rfl

/-- A state is noted at the end, unless it is known. -/
theorem add_cases (h : found.add id = .ok found') :
    (id ∈ found.states ∧ found' = found) ∨
      (id ∉ found.states ∧ found'.states = found.states.push id) := by
  unfold Found.add at h
  split at h
  · rename_i hknown
    cases h
    exact .inl ⟨(found.mem_known id).mp hknown, rfl⟩
  · rename_i hnew
    split at h <;> cases h
    exact .inr ⟨mt (found.mem_known id).mpr hnew, rfl⟩

theorem mem_add (h : found.add id = .ok found') :
    x ∈ found'.states ↔ x ∈ found.states ∨ x = id := by
  rcases add_cases h with ⟨hid, rfl⟩ | ⟨-, hstates⟩
  · exact ⟨.inl, fun hx => hx.elim (fun hx => hx) fun hx => hx ▸ hid⟩
  · rw [hstates, Array.mem_push]

theorem prefix_add (h : found.add id = .ok found') :
    found.states.toList <+: found'.states.toList := by
  rcases add_cases h with ⟨-, rfl⟩ | ⟨-, hstates⟩
  · exact List.prefix_rfl
  · simp [hstates]

theorem nodup_add (hnodup : found.states.toList.Nodup) (h : found.add id = .ok found') :
    found'.states.toList.Nodup := by
  rcases add_cases h with ⟨-, rfl⟩ | ⟨hnew, hstates⟩
  · exact hnodup
  · rw [hstates, Array.toList_push, ← List.concat_eq_append, List.nodup_concat]
    exact ⟨mt Array.mem_toList_iff.mp hnew, hnodup⟩

end Found

namespace Table

variable {a : Automaton} {limit : Nat} {register register' register'' : MergeRegister}
  {found found' found'' : Found limit} {set : List StateId} {id : StateId}

/-- The states found are distinct, and each stands for a closure. -/
structure Tracks (a : Automaton) (register : MergeRegister) (found : Found limit) : Prop where
  first_eq : register.first = a.size
  nodup : found.states.toList.Nodup
  holds : ∀ id ∈ found.states, ∃ set, a.IsClosure set ∧ register.Holds id set

/-- Each state found stands for a closure, namely its members. -/
theorem Tracks.members (ht : Tracks a register found) (hid : id ∈ found.states) :
    a.IsClosure (register.members id) ∧ register.Holds id (register.members id) := by
  obtain ⟨set, hset, hholds⟩ := ht.holds id hid
  rw [hholds.members_eq]
  exact ⟨hset, hholds⟩

/-- What has been found and numbered is so later, too. -/
structure Later (register : MergeRegister) (found : Found limit) (register' : MergeRegister)
    (found' : Found limit) : Prop where
  extends_register : register.Extends register'
  states_prefix : found.states.toList <+: found'.states.toList

theorem Later.refl (register : MergeRegister) (found : Found limit) :
    Later register found register found := ⟨.refl _, List.prefix_rfl⟩

theorem Later.trans (h : Later register found register' found')
    (h' : Later register' found' register'' found'') : Later register found register'' found'' :=
  ⟨h.extends_register.trans h'.extends_register, h.states_prefix.trans h'.states_prefix⟩

theorem Later.exact {r : Row} (hl : Later register found register' found')
    (h : r.Exact a register found.states.toList) : r.Exact a register' found'.states.toList where
  closure := h.closure
  holds := h.holds.mono hl.extends_register
  isFinal_eq := h.isFinal_eq
  moves_none := h.moves_none
  moves_some := fun hc hne => by
    obtain ⟨id, hid, hlookup, hholds⟩ := h.moves_some hc hne
    exact ⟨id, hl.states_prefix.subset hid, hlookup, hholds.mono hl.extends_register⟩

/-- Entering a set merges it and notes the state that it gets. -/
theorem enter_cases (h : enter a register found set = .ok (id, register', found')) :
    ∃ m, register.mergeSorted set = .ok (m, register') ∧ id = m.id ∧
      found.add id = .ok found' := by
  unfold enter at h
  split at h <;> [skip; cases h]
  rename_i m register₁ hm
  split at h <;> [skip; cases h]
  rename_i found₁ hadd
  split at h <;> [skip; cases h]
  cases h
  exact ⟨m, hm, rfl, hadd⟩

/-- Entering a closure finds its state. -/
theorem enter_spec (hsize : a.edges.size = a.size) (ht : Tracks a register found)
    (hset : a.IsClosure set) (h : enter a register found set = .ok (id, register', found')) :
    Tracks a register' found' ∧ Later register found register' found' ∧
      id ∈ found'.states ∧ register'.Holds id set := by
  obtain ⟨m, hm, rfl, hadd⟩ := enter_cases h
  obtain ⟨he, hholds⟩ := MergeRegister.holds_of_mergeSorted
    (fun s hs => ht.first_eq ▸ hset.lt_size hsize hs) hm
  refine ⟨⟨he.first_eq.trans ht.first_eq, Found.nodup_add ht.nodup hadd, fun x hx => ?_⟩,
    ⟨he, Found.prefix_add hadd⟩, (Found.mem_add hadd).mpr (.inr rfl), hholds⟩
  rcases (Found.mem_add hadd).mp hx with hx | rfl
  · obtain ⟨other, hother, hx⟩ := ht.holds x hx
    exact ⟨other, hother, hx.mono he⟩
  · exact ⟨set, hset, hholds⟩

/-- A silent symbol and an empty closure lead nowhere. -/
theorem moves_cons_skip {symbol : Symbol} {targets : List StateId}
    {pairs : List (Symbol × List StateId)} (h : symbol = .lambda ∨ a.closure targets = []) :
    moves a a.silentTargets register found ((symbol, targets) :: pairs) =
      moves a a.silentTargets register found pairs := by
  rw [moves]
  rcases h with h | h
  · simp [h]
  · rw [Automaton.closure] at h
    simp [h]

/-- Any other closure is entered. -/
theorem moves_cons_enter {symbol : Symbol} {targets : List StateId}
    {pairs : List (Symbol × List StateId)} (hc : symbol ≠ .lambda)
    (hne : a.closure targets ≠ []) :
    moves a a.silentTargets register found ((symbol, targets) :: pairs) =
      (enter a register found (a.closure targets)).bind fun (id, register, found) =>
        (moves a a.silentTargets register found pairs).map fun (later, rest) =>
          ((symbol, id) :: later, rest) := by
  rw [Automaton.closure] at hne
  simp only [moves, if_neg hc, List.isEmpty_iff, if_neg hne, Automaton.closure]
  cases enter a register found (a.closureAlong a.silentTargets targets) with
  | error e => rfl
  | ok entered =>
    obtain ⟨id, register, found⟩ := entered
    show _ = Except.map _ _
    dsimp only
    cases moves a a.silentTargets register found pairs <;> rfl

/-- What has been found and where the symbols lead, if it succeeds. -/
theorem moves_cons {symbol : Symbol} {targets : List StateId}
    {pairs : List (Symbol × List StateId)} {ms : List (Symbol × StateId)}
    (h : moves a a.silentTargets register found ((symbol, targets) :: pairs) =
      .ok (ms, register', found')) :
    ((symbol = .lambda ∨ a.closure targets = []) ∧
      moves a a.silentTargets register found pairs = .ok (ms, register', found')) ∨
    (symbol ≠ .lambda ∧ a.closure targets ≠ [] ∧ ∃ id register₁ found₁ later,
      enter a register found (a.closure targets) = .ok (id, register₁, found₁) ∧
      moves a a.silentTargets register₁ found₁ pairs = .ok (later, register', found') ∧
      ms = (symbol, id) :: later) := by
  by_cases hskip : symbol = .lambda ∨ a.closure targets = []
  · exact .inl ⟨hskip, (moves_cons_skip hskip).symm.trans h⟩
  obtain ⟨hc, hne⟩ := not_or.mp hskip
  rw [moves_cons_enter hc hne] at h
  cases henter : enter a register found (a.closure targets) with
  | error e =>
    rw [henter] at h
    cases h
  | ok entered =>
    obtain ⟨id, register₁, found₁⟩ := entered
    rw [henter] at h
    obtain ⟨⟨later, rest⟩, hrest, hms⟩ := map_eq_ok.mp h
    cases hms
    exact .inr ⟨hc, hne, id, register₁, found₁, later, rfl, hrest, rfl⟩

/-- Finding where a state leads takes note of the closure that each symbol leads to. -/
theorem moves_spec (hsize : a.edges.size = a.size) {pairs : List (Symbol × List StateId)}
    {ms : List (Symbol × StateId)} (ht : Tracks a register found)
    (h : moves a a.silentTargets register found pairs = .ok (ms, register', found')) :
    Tracks a register' found' ∧ Later register found register' found' ∧
      (ms.map Prod.fst).Sublist (pairs.map Prod.fst) ∧
      (∀ p ∈ ms, ∃ targets, (p.1, targets) ∈ pairs ∧ p.1 ≠ .lambda ∧ a.closure targets ≠ []) ∧
      ∀ p ∈ pairs, p.1 ≠ .lambda → a.closure p.2 ≠ [] →
        ∃ id ∈ found'.states, (p.1, id) ∈ ms ∧ register'.Holds id (a.closure p.2) := by
  induction pairs generalizing register found ms with
  | nil =>
    cases h
    exact ⟨ht, .refl _ _, .refl _, fun _ hp => absurd hp List.not_mem_nil,
      fun _ hp => absurd hp List.not_mem_nil⟩
  | cons pair pairs ih =>
    obtain ⟨symbol, targets⟩ := pair
    rcases moves_cons h with
      ⟨hskip, h⟩ | ⟨hc, hne, id, register₁, found₁, later, henter, hrest, rfl⟩
    · obtain ⟨ht', hl, hsub, hfrom, hto⟩ := ih ht h
      refine ⟨ht', hl, hsub.cons _, fun p hp => ?_, fun p hp hc hne => ?_⟩
      · obtain ⟨targets', hmem, hrest⟩ := hfrom p hp
        exact ⟨targets', List.mem_cons_of_mem _ hmem, hrest⟩
      · rcases List.mem_cons.mp hp with rfl | hp
        · exact absurd hskip (not_or.mpr ⟨hc, hne⟩)
        · exact hto p hp hc hne
    · obtain ⟨ht₁, hl₁, hid, hholds⟩ := enter_spec hsize ht ⟨hne, targets, rfl⟩ henter
      obtain ⟨ht₂, hl₂, hsub, hfrom, hto⟩ := ih ht₁ hrest
      refine ⟨ht₂, hl₁.trans hl₂, hsub.cons_cons _, fun p hp => ?_, fun p hp hc hne => ?_⟩
      · rcases List.mem_cons.mp hp with rfl | hp
        · exact ⟨targets, List.mem_cons_self .., hc, hne⟩
        · obtain ⟨targets', hmem, hrest⟩ := hfrom p hp
          exact ⟨targets', List.mem_cons_of_mem _ hmem, hrest⟩
      · rcases List.mem_cons.mp hp with rfl | hp
        · have hid₂ : id ∈ found₁.states.toList := Array.mem_toList_iff.mpr hid
          exact ⟨id, Array.mem_toList_iff.mp (hl₂.states_prefix.subset hid₂),
            List.mem_cons_self .., hholds.mono hl₂.extends_register⟩
        · obtain ⟨id', hid', hmem, hholds'⟩ := hto p hp hc hne
          exact ⟨id', hid', List.mem_cons_of_mem _ hmem, hholds'⟩

/-- The targets listed for a symbol have the successors as their closure. -/
theorem successors_of_mem_targets {c : Symbol} {targets : List StateId}
    (h : (c, targets) ∈ (a.targets set).toList) : a.successors set c = a.closure targets := by
  rw [Std.TreeMap.mem_toList_iff_getElem?_eq_some] at h
  rw [Automaton.successors, h, Option.getD_some]

/-- The row of a closure is exact once all its moves are noted. -/
theorem exact_row (hsize : a.edges.size = a.size) {ms : List (Symbol × StateId)}
    (hset : a.IsClosure set) (hid : register.Holds id set) (ht : Tracks a register found)
    (h : moves a a.silentTargets register found (a.targets set).toList =
      .ok (ms, register', found')) {r : Row} (hr : a.row id set ms = some r) :
    r.Exact a register' found'.states.toList := by
  obtain ⟨-, hl, hsub, hfrom, hto⟩ := moves_spec hsize ht h
  obtain ⟨_, -, rfl⟩ := Option.map_eq_some_iff.mp hr
  refine ⟨hset, hid.mono hl.extends_register, rfl, fun {c} hc => ?_, fun {c} hc hne => ?_⟩
  · refine Option.eq_none_iff_forall_ne_some.mpr fun id' hid' => ?_
    obtain ⟨targets, hmem, hc', hne⟩ := hfrom _ (mem_of_lookup hid')
    exact (not_or.mpr ⟨hc', successors_of_mem_targets hmem ▸ hne⟩) hc
  · replace hne : a.successors set c ≠ [] := hne
    show ∃ id' ∈ _, ms.lookup c = some id' ∧ register'.Holds id' (a.successors set c)
    cases hc' : (a.targets set)[c]? with
    | none =>
      rw [Automaton.successors, hc', Option.getD_none, Automaton.closure_nil] at hne
      exact absurd rfl hne
    | some targets =>
      have hmem := Std.TreeMap.mem_toList_iff_getElem?_eq_some.mpr hc'
      rw [successors_of_mem_targets hmem] at hne
      obtain ⟨id', hid', hmem', hholds⟩ := hto _ hmem hc hne
      exact ⟨id', Array.mem_toList_iff.mpr hid',
        lookup_of_mem (hsub.nodup (nodup_keys_toList _)) hmem',
        successors_of_mem_targets hmem ▸ hholds⟩

/-- The states found first have rows, which are exact. -/
structure Explored (a : Automaton) (register : MergeRegister) (found : Found limit)
    (rows : List Row) : Prop where
  ids_prefix : rows.map Row.id <+: found.states.toList
  exact : ∀ r ∈ rows, r.Exact a register found.states.toList

/-- Exploring ends when all states found have rows. -/
theorem explore_end {rows : Array Row} (h : found.states[rows.size]? = none) :
    explore a a.silentTargets rows register found = .ok (rows.toList, register) := by
  rw [explore]
  split <;> rename_i hget
  · rfl
  · cases hget.symm.trans h

section Round

variable {rows : Array Row} {ms : List (Symbol × StateId)} {e : Failure}
  (hnext : found.states[rows.size]? = some id)
include hnext

theorem explore_eq : explore a a.silentTargets rows register found =
    (moves a a.silentTargets register found (a.targets (register.members id)).toList).bind
      fun (ms, register', later) =>
        match a.row id (register.members id) ms with
        | some r => explore a a.silentTargets (rows.push r) register' later
        | none => .error .unknownTransform := by
  rw [explore]
  split <;> rename_i hget <;> cases hget.symm.trans hnext
  dsimp only
  cases moves a a.silentTargets register found (a.targets (register.members id)).toList <;> rfl

/-- Otherwise the first state without a row is given one. -/
theorem explore_next {r : Row}
    (hms : moves a a.silentTargets register found (a.targets (register.members id)).toList =
      .ok (ms, register', found'))
    (hr : a.row id (register.members id) ms = some r) :
    explore a a.silentTargets rows register found =
      explore a a.silentTargets (rows.push r) register' found' := by
  rw [explore_eq hnext, hms]
  show (match a.row id (register.members id) ms with | some r => _ | none => _) = _
  rw [hr]

theorem explore_of_moves_error
    (he : moves a a.silentTargets register found (a.targets (register.members id)).toList =
      .error e) : explore a a.silentTargets rows register found = .error e := by
  rw [explore_eq hnext, he]
  rfl

theorem explore_of_row_none
    (hms : moves a a.silentTargets register found (a.targets (register.members id)).toList =
      .ok (ms, register', found'))
    (hr : a.row id (register.members id) ms = none) :
    explore a a.silentTargets rows register found = .error .unknownTransform := by
  rw [explore_eq hnext, hms]
  show (match a.row id (register.members id) ms with | some r => _ | none => _) = _
  rw [hr]

end Round

theorem row_fields {ms : List (Symbol × StateId)} {r : Row} (h : a.row id set ms = some r) :
    r.id = id ∧ r.members = set ∧ r.moves = ms := by
  obtain ⟨_, -, rfl⟩ := Option.map_eq_some_iff.mp h
  exact ⟨rfl, rfl, rfl⟩

theorem row_eq_none_iff {ms : List (Symbol × StateId)} :
    a.row id set ms = none ↔ a.chooseAll set = none := Option.map_eq_none_iff

/-- Each round of exploring, which gives the first state without a row its row, keeps the
property. -/
structure KeptByRounds (a : Automaton) (P : Array Row → MergeRegister → Found limit → Prop) :
    Prop where
  round {rows : Array Row} {register register' : MergeRegister} {found found' : Found limit}
    {id : StateId} {ms : List (Symbol × StateId)} {r : Row} : P rows register found →
    found.states[rows.size]? = some id →
    moves a a.silentTargets register found (a.targets (register.members id)).toList =
      .ok (ms, register', found') →
    a.row id (register.members id) ms = some r → P (rows.push r) register' found'

namespace KeptByRounds

variable {P : Array Row → MergeRegister → Found limit → Prop} {rows : Array Row}

/-- What each round keeps holds at the end, when all states found have rows. -/
theorem explore_ok (hP : KeptByRounds a P) (h₀ : P rows register found) {rows' : List Row}
    (h : explore a a.silentTargets rows register found = .ok (rows', register')) :
    ∃ found', found'.states.size ≤ rows'.length ∧ P rows'.toArray register' found' := by
  induction rows, register, found using explore.induct a a.silentTargets with
  | case1 rows register found hend =>
    rw [explore_end hend] at h
    cases h
    exact ⟨found, Array.getElem?_eq_none_iff.mp hend, h₀⟩
  | case2 rows register found id hnext members ms register₁ later hms r hr ih =>
    rw [explore_next hnext hms hr] at h
    exact ih (hP.round h₀ hnext hms hr) h
  | case3 rows register found id hnext members ms register₁ later hms hr =>
    rw [explore_of_row_none hnext hms hr] at h
    cases h
  | case4 rows register found id hnext members e he =>
    rw [explore_of_moves_error hnext he] at h
    cases h

/-- Where exploring fails, some round does, and up to it the property is kept. -/
theorem explore_error (hP : KeptByRounds a P) (h₀ : P rows register found) {e : Failure}
    (h : explore a a.silentTargets rows register found = .error e) :
    ∃ rows register found id, P rows register found ∧ found.states[rows.size]? = some id ∧
      (moves a a.silentTargets register found (a.targets (register.members id)).toList =
          .error e ∨
        e = .unknownTransform ∧ a.chooseAll (register.members id) = none) := by
  induction rows, register, found using explore.induct a a.silentTargets with
  | case1 rows register found hend =>
    rw [explore_end hend] at h
    cases h
  | case2 rows register found id hnext members ms register₁ later hms r hr ih =>
    rw [explore_next hnext hms hr] at h
    exact ih (hP.round h₀ hnext hms hr) h
  | case3 rows register found id hnext members ms register₁ later hms hr =>
    rw [explore_of_row_none hnext hms hr] at h
    cases h
    exact ⟨rows, register, found, id, h₀, hnext, .inr ⟨rfl, row_eq_none_iff.mp hr⟩⟩
  | case4 rows register found id hnext members e' he =>
    rw [explore_of_moves_error hnext he] at h
    cases h
    exact ⟨rows, register, found, id, h₀, hnext, .inl he⟩

end KeptByRounds

theorem Explored.round (hsize : a.edges.size = a.size) {rows : Array Row}
    {ms : List (Symbol × StateId)} (ht : Tracks a register found)
    (hrows : Explored a register found rows.toList) (hnext : found.states[rows.size]? = some id)
    (hms : moves a a.silentTargets register found (a.targets (register.members id)).toList =
      .ok (ms, register', found')) {r : Row} (hr : a.row id (register.members id) ms = some r) :
    Explored a register' found' (rows.push r).toList := by
  obtain ⟨set, hset, hid⟩ := ht.holds id (Array.mem_of_getElem? hnext)
  obtain rfl : register.members id = set := hid.members_eq
  obtain ⟨-, hl, -⟩ := moves_spec hsize ht hms
  have hexact := exact_row hsize hset hid ht hms hr
  refine ⟨?_, fun r' hr' => ?_⟩
  · rw [Array.toList_push, List.map_append, List.map_singleton, (row_fields hr).1]
    refine List.IsPrefix.trans (prefix_concat hrows.ids_prefix ?_) hl.states_prefix
    rwa [List.length_map, Array.length_toList, Array.getElem?_toList]
  · rw [Array.toList_push, List.mem_append, List.mem_singleton] at hr'
    rcases hr' with hr' | rfl
    · exact hl.exact (hrows.exact r' hr')
    · exact hexact

/-- When all states found have rows, the rows are theirs. -/
theorem Explored.ids_eq {rows : List Row} (h : Explored a register found rows)
    (hend : found.states.size ≤ rows.length) : rows.map Row.id = found.states.toList :=
  h.ids_prefix.eq_of_length_le (by simpa using hend)

/-- Exploring ends with an exact row for each state found, the earlier ones first. -/
theorem explore_spec (hsize : a.edges.size = a.size) {rows : Array Row} {rows' : List Row}
    (ht : Tracks a register found) (hrows : Explored a register found rows.toList)
    (h : explore a a.silentTargets rows register found = .ok (rows', register')) :
    (rows'.map Row.id).Nodup ∧ found.states.toList <+: rows'.map Row.id ∧
      register.Extends register' ∧
      ∀ r ∈ rows', r.Exact a register' (rows'.map Row.id) := by
  have hkept : KeptByRounds a fun rows' register' (found' : Found limit) =>
      Tracks a register' found' ∧ Explored a register' found' rows'.toList ∧
        Later register found register' found' :=
    ⟨fun ⟨ht₁, hrows₁, hl₁⟩ hnext hms hr => by
      obtain ⟨ht₂, hl₂, -⟩ := moves_spec hsize ht₁ hms
      exact ⟨ht₂, hrows₁.round hsize ht₁ hnext hms hr, hl₁.trans hl₂⟩⟩
  obtain ⟨found', hend, ht', hrows', hl⟩ := hkept.explore_ok ⟨ht, hrows, .refl _ _⟩ h
  rw [hrows'.ids_eq hend]
  exact ⟨ht'.nodup, hl.states_prefix, hl.extends_register, hrows'.exact⟩

/-- The states of a table are distinct, the start is the closure of the automaton's start, and all
rows are exact. -/
structure Exact (a : Automaton) (t : Table) : Prop where
  automaton_eq : t.automaton = a
  nodup : (t.rows.map Row.id).Nodup
  start : ∃ r ∈ t.rows, r.id = t.start ∧ r.members = a.closure [Automaton.start]
  rows : ∀ r ∈ t.rows, r.Exact a t.register (t.rows.map Row.id)

theorem tracks_empty (a : Automaton) (limit : Nat) :
    Tracks a (.empty a.size) (.empty limit) :=
  ⟨rfl, .nil, fun _ hid => absurd hid (Array.not_mem_empty _)⟩

theorem determinize_of_nil (h : a.closure [Automaton.start] = []) :
    determinize a limit = .ok (deadEnd a) := by
  simp [determinize, h]

/-- Unless it is empty, the closure of the start is entered and explored. -/
theorem determinize_of_ne_nil (h : a.closure [Automaton.start] ≠ []) :
    determinize a limit =
      (enter a (.empty a.size) (.empty limit) (a.closure [Automaton.start])).bind
        fun (start, register, found) =>
          (explore a a.silentTargets #[] register found).map fun (rows, register) =>
            { automaton := a, start, rows, register } := by
  simp only [determinize, List.isEmpty_iff, if_neg h, MergeRegister.empty, Found.empty]
  cases enter a { first := a.size } ({} : Found limit) (a.closure [Automaton.start]) with
  | error e => rfl
  | ok entered =>
    obtain ⟨start, register, found⟩ := entered
    show _ = Except.map _ _
    dsimp only
    cases explore a a.silentTargets #[] register found <;> rfl

theorem determinize_cases (hne : a.closure [Automaton.start] ≠ []) {t : Table}
    (h : determinize a limit = .ok t) :
    ∃ (register : MergeRegister) (found : Found limit),
      enter a (.empty a.size) (.empty limit) (a.closure [Automaton.start]) =
        .ok (t.start, register, found) ∧
      explore a a.silentTargets #[] register found = .ok (t.rows, t.register) ∧
      t = { automaton := a, start := t.start, rows := t.rows, register := t.register } := by
  rw [determinize_of_ne_nil hne] at h
  cases henter : enter a (.empty a.size) (.empty limit) (a.closure [Automaton.start]) with
  | error e =>
    rw [henter] at h
    cases h
  | ok entered =>
    obtain ⟨start, register, found⟩ := entered
    rw [henter] at h
    obtain ⟨⟨rows, register'⟩, hexplore, rfl⟩ := map_eq_ok.mp h
    exact ⟨register, found, rfl, hexplore, rfl⟩

/-- A table that is made of an automaton is exact, unless it is that of a dead end. -/
theorem exact_of_determinize (hsize : a.edges.size = a.size) {t : Table}
    (h : determinize a limit = .ok t) :
    (a.closure [Automaton.start] = [] ∧ t = deadEnd a) ∨ t.Exact a := by
  by_cases hne : a.closure [Automaton.start] = []
  · rw [determinize_of_nil hne] at h
    cases h
    exact .inl ⟨hne, rfl⟩
  · obtain ⟨register, found, henter, hexplore, hrest⟩ := determinize_cases hne h
    obtain ⟨ht, -, hstart, hholds⟩ := enter_spec hsize (tracks_empty a limit) ⟨hne, _, rfl⟩ henter
    have hempty : Explored a register found (#[] : Array Row).toList :=
      ⟨List.nil_prefix, fun _ hr => absurd hr List.not_mem_nil⟩
    obtain ⟨hnodup, hlisted, he, hrows⟩ := explore_spec hsize ht hempty hexplore
    obtain ⟨r, hr, hid⟩ := List.mem_map.mp (hlisted.subset (Array.mem_toList_iff.mpr hstart))
    refine .inr ⟨congrArg automaton hrest, hnodup, ⟨r, hr, hid, ?_⟩, hrows⟩
    exact (hid ▸ (hrows r hr).holds).set_unique (hholds.mono he)

theorem ofAutomaton_eq_ok {t : Table} :
    ofAutomaton a limit = .ok t ↔ determinize a limit = .ok t := by
  unfold ofAutomaton
  split <;> rename_i h <;> simp [h]

theorem exact_of_ofAutomaton (hsize : a.edges.size = a.size) {t : Table}
    (h : ofAutomaton a limit = .ok t) :
    (a.closure [Automaton.start] = [] ∧ t = deadEnd a) ∨ t.Exact a :=
  exact_of_determinize hsize (ofAutomaton_eq_ok.mp h)

end Table

end SoundChange
