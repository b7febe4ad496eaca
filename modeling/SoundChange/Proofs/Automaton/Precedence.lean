import SoundChange.Proofs.Automaton.Discovery
import Mathlib.Data.Set.Card

/-!
# Which transforms a table takes over

The members of a state of a table carry transforms in slots: on the edges of a symbol, or as their
defaults. In each slot one of them prevails, an ordinary one of the lowest-numbered member that
carries one, or else the transform of the lowest-numbered member that carries any
(`Automaton.Prevails`). Taking up the transforms one after the other comes to that choice and counts
the ordinary ones that write something else (`Automaton.choose_eq`). So the conflicts of a table are
the members passed over (`Table.passedOver`), provided that no member offers a transform twice.
-/

namespace SoundChange

theorem eq_toList {α : Type} {l : List α} {o : Option α} (hlen : l.length ≤ 1)
    (h : ∀ x, x ∈ l ↔ o = some x) : l = o.toList := by
  cases l with
  | nil =>
    cases o with
    | none => rfl
    | some x => exact absurd ((h x).mpr rfl) List.not_mem_nil
  | cons x l =>
    have hl : l = [] := by simpa using hlen
    rw [(h x).mp (List.mem_cons_self ..), hl]
    rfl

/-- A sum taken in a loop, when each summand counts the elements of a list. -/
theorem foldl_add_eq_length {α β : Type} {f : α → Nat} {g : α → List β} {l : List α}
    (h : ∀ x ∈ l, f x = (g x).length) (k : Nat) :
    l.foldl (fun n x => n + f x) k = k + (l.flatMap g).length := by
  induction l generalizing k with
  | nil => rfl
  | cons x l ih =>
    rw [List.foldl_cons, ih (fun y hy => h y (List.mem_cons_of_mem _ hy)),
      h x (List.mem_cons_self ..), List.flatMap_cons, List.length_append, Nat.add_assoc]

namespace Automaton

variable {a : Automaton} {s : StateId} {slot : Slot} {members : List StateId}
  {ns : List TransformId} {n w : TransformId} {u : Transform} {k : Nat}

/-- The text that an ordinary transform writes. -/
def written? (a : Automaton) (n : TransformId) : Option Text :=
  (a.transform? n).bind fun u => if u.isNull then none else some u.replacement

/-- The lowest-numbered member that carries a transform with some property carries `n`. -/
def CarriedFirst (a : Automaton) (members : List StateId) (slot : Slot)
    (p : TransformId → Bool) (n : TransformId) : Prop :=
  ∃ m ∈ members, a.carried? m slot = some n ∧ p n = true ∧
    ∀ m' ∈ members, m' < m → ∀ n', a.carried? m' slot = some n' → p n' = false

/-- The transform is that of the lowest-numbered member with an ordinary one or, if none has, that
of the lowest-numbered member with any. -/
def Prevails (a : Automaton) (members : List StateId) (slot : Slot) (n : TransformId) : Prop :=
  a.CarriedFirst members slot (a.isKind false) n ∨
    (∀ m ∈ members, ∀ n', a.carried? m slot = some n' → a.isKind false n' = false) ∧
      a.CarriedFirst members slot (fun _ => true) n

/-! ## Taking transforms up -/

/-- The first ordinary transform, or else the first one. -/
def firstChoice (a : Automaton) (ns : List TransformId) : Option TransformId :=
  (ns.find? (a.isKind false)).or ns.head?

/-- The transform is ordinary and writes something else than the chosen one, ordinary too. -/
def differs (a : Automaton) (chosen : Option TransformId) (n : TransformId) : Bool :=
  (a.written? n).any fun x => (chosen.bind a.written?).any (x ≠ ·)

theorem isKind_eq (hn : a.transform? n = some u) (null : Bool) :
    a.isKind null n = (u.isNull == null) := by
  simp [isKind, hn, Bool.beq_eq_decide_eq]

theorem written?_eq (hn : a.transform? n = some u) :
    a.written? n = if u.isNull then none else some u.replacement := by
  rw [written?, hn, Option.bind_some]

theorem written?_isSome : (a.written? n).isSome = a.isKind false n := by
  unfold written? isKind
  cases a.transform? n with
  | none => rfl
  | some u => cases hu : u.isNull <;> simp [hu]

theorem differs_eq_false (h : a.isKind false n = false) (chosen : Option TransformId) :
    a.differs chosen n = false := by
  rw [← written?_isSome, Option.isSome_eq_false_iff, Option.isNone_iff_eq_none] at h
  rw [differs, h, Option.any_none]

theorem not_differs_self : a.differs (some n) n = false := by
  unfold differs
  cases h : a.written? n <;> simp [h]

/-- An ordinary transform stays, and whatever differs from it is counted. -/
theorem takeUp_ordinary (hw : a.isKind false w = true) (hn : a.transform? n = some u) :
    a.takeUp (some w, k) n = some (some w, k + if a.differs (some w) n then 1 else 0) := by
  by_cases hwn : w = n
  · subst hwn
    simp [takeUp, not_differs_self]
  obtain ⟨t, ht, hnull⟩ := (Option.any_eq_true _ _).mp hw
  rw [decide_eq_true_eq] at hnull
  have hwritten : a.written? w = some t.replacement := by simp [written?_eq ht, hnull]
  simp only [takeUp, if_neg hwn, ht, hn, hnull, differs, Option.bind_some, hwritten,
    written?_eq hn]
  cases u.isNull
  · by_cases hsame : t.replacement = u.replacement
    · simp [hsame]
    · simp [hsame, Ne.symm hsame]
  · simp

/-- A null transform gives way to an ordinary one. -/
theorem takeUp_null (hw : a.isKind false w = false) (ht : ∃ t, a.transform? w = some t)
    (hn : a.transform? n = some u) :
    a.takeUp (some w, k) n = some (if a.isKind false n then some n else some w, k) := by
  by_cases hwn : w = n
  · subst hwn
    simp [takeUp]
  obtain ⟨t, ht⟩ := ht
  have hnull : t.isNull = true := by simpa [isKind_eq ht] using hw
  simp only [takeUp, if_neg hwn, ht, hn, hnull, isKind_eq hn]
  cases u.isNull <;> rfl

theorem firstChoice_concat (l : List TransformId) : a.firstChoice (l ++ [n]) =
    ((l.find? (a.isKind false)).or (if a.isKind false n then some n else none)).or
      (l.head?.or (some n)) := by
  rw [firstChoice, List.find?_append, List.head?_append, List.find?_singleton, List.head?_singleton]

/-- The choice among registered transforms, and how many are passed over for another text. -/
theorem choose_eq (h : ∀ n ∈ ns, ∃ u, a.transform? n = some u) :
    a.choose ns = some (a.firstChoice ns, ns.countP (a.differs (a.firstChoice ns))) := by
  induction ns using List.reverseRecOn with
  | nil => rfl
  | append_singleton l n ih =>
    have hl : ∀ n ∈ l, ∃ u, a.transform? n = some u :=
      fun n hn => h n (List.mem_append_left _ hn)
    obtain ⟨u, hu⟩ := h n (by simp)
    rw [choose_concat, ih hl, Option.bind_some, List.countP_append, List.countP_singleton,
      firstChoice_concat]
    cases hfind : l.find? (a.isKind false) with
    | some w =>
      have hchoice : a.firstChoice l = some w := by simp [firstChoice, hfind]
      rw [hchoice, takeUp_ordinary (List.find?_some hfind) hu]
      rfl
    | none =>
      -- No ordinary one so far: nothing has been passed over.
      have hnull : ∀ m ∈ l, a.isKind false m = false := by simpa using hfind
      have hnone (chosen : Option TransformId) : l.countP (a.differs chosen) = 0 :=
        List.countP_eq_zero.mpr fun m hm => by simp [differs_eq_false (hnull m hm)]
      rw [hnone, hnone, firstChoice, hfind]
      cases hhead : l.head? with
      | none => cases hk : a.isKind false n <;> simp [takeUp, not_differs_self]
      | some m =>
        have hm : m ∈ l := List.mem_of_mem_head? hhead
        rw [Option.none_or, takeUp_null (hnull m hm) (hl m hm) hu]
        cases hk : a.isKind false n <;> simp [not_differs_self, differs_eq_false, hk]

/-! ## What the members offer -/

theorem find?_offersOf_eq_some_iff {p : TransformId → Bool} :
    (a.offersOf s slot).find? p = some n ↔ a.carried? s slot = some n ∧ p n = true := by
  constructor
  · intro h
    exact ⟨mem_offersOf.mp (List.mem_of_find?_eq_some h), List.find?_some h⟩
  · rintro ⟨hn, hp⟩
    cases hfind : (a.offersOf s slot).find? p with
    | none => exact absurd hp (List.find?_eq_none.mp hfind n (mem_offersOf.mpr hn))
    | some n' => rw [← mem_offersOf.mp (List.mem_of_find?_eq_some hfind), hn]

/-- The first offer of some kind is made by the lowest-numbered member with such a transform. -/
theorem find?_offered_eq_some_iff (hmembers : members.Pairwise (· < ·)) {p : TransformId → Bool} :
    (a.offered members slot).find? p = some n ↔ a.CarriedFirst members slot p n := by
  rw [offered_eq_flatMap, List.find?_flatMap, List.findSome?_eq_some_iff]
  constructor
  · rintro ⟨before, m, after, rfl, hm, hbefore⟩
    obtain ⟨hn, hp⟩ := find?_offersOf_eq_some_iff.mp hm
    refine ⟨m, by simp, hn, hp, fun m' hm' hlt n' hn' => ?_⟩
    rw [List.pairwise_append, List.pairwise_cons] at hmembers
    have hm' : m' ∈ before := by
      rcases List.mem_append.mp hm' with hm' | hm'
      · exact hm'
      · rcases List.mem_cons.mp hm' with rfl | hm'
        · exact absurd hlt (Nat.lt_irrefl _)
        · exact absurd (hmembers.2.1.1 m' hm') (Nat.lt_asymm hlt)
    simpa using List.find?_eq_none.mp (hbefore m' hm') n' (mem_offersOf.mpr hn')
  · rintro ⟨m, hm, hn, hp, hfirst⟩
    obtain ⟨before, after, rfl⟩ := List.append_of_mem hm
    refine ⟨before, m, after, rfl, find?_offersOf_eq_some_iff.mpr ⟨hn, hp⟩, fun m' hm' => ?_⟩
    have hlt : m' < m := (List.pairwise_append.mp hmembers).2.2 m' hm' m (by simp)
    refine List.find?_eq_none.mpr fun n' hn' => ?_
    simp [hfirst m' (List.mem_append_left _ hm') hlt n' (mem_offersOf.mp hn')]

/-- The first choice among the offers prevails. -/
theorem firstChoice_offered_eq_some_iff (hmembers : members.Pairwise (· < ·)) :
    a.firstChoice (a.offered members slot) = some n ↔ a.Prevails members slot n := by
  have hhead : (a.offered members slot).head? = (a.offered members slot).find? fun _ => true := by
    cases a.offered members slot <;> rfl
  rw [firstChoice, Option.or_eq_some_iff, hhead, find?_offered_eq_some_iff hmembers,
    find?_offered_eq_some_iff hmembers, Prevails, List.find?_eq_none]
  simp only [mem_offered, Bool.not_eq_true]
  grind

/-! ## Rows -/

theorem Registered.exists_of_mem_offered (hreg : a.Registered) :
    ∀ n ∈ a.offered members slot, ∃ u, a.transform? n = some u := by
  intro n hn
  obtain ⟨s, -, hs⟩ := mem_offered.mp hn
  exact hreg.knows hs

theorem nodup_slots : (a.slots members).Nodup := by
  refine List.nodup_cons.mpr ⟨by simp, ?_⟩
  have hkeys := (nodup_keys_toList (a.offers members)).map fun _ _ => Slot.symbol.inj
  rwa [List.map_map] at hkeys

theorem mem_slots_of_carried (hs : s ∈ members) (hn : a.carried? s slot = some n) :
    slot ∈ a.slots members := by
  cases slot with
  | default => exact List.mem_cons_self ..
  | symbol c =>
    have hoffered : n ∈ a.offered members (.symbol c) := mem_offered.mpr ⟨s, hs, hn⟩
    unfold offered at hoffered
    cases hget : (a.offers members)[c]? with
    | none => simp [hget] at hoffered
    | some ns =>
      have hmem := Std.TreeMap.mem_toList_iff_getElem?_eq_some.mpr hget
      exact List.mem_cons_of_mem _ (List.mem_map.mpr ⟨_, hmem, rfl⟩)

theorem differs_iff {chosen : Option TransformId} : a.differs chosen n = true ↔
    ∃ x w y, a.written? n = some x ∧ chosen = some w ∧ a.written? w = some y ∧ x ≠ y := by
  simp only [differs, Option.any_eq_true, Option.bind_eq_some_iff, decide_eq_true_eq]
  constructor
  · rintro ⟨x, hx, y, ⟨w, hw, hy⟩, hne⟩
    exact ⟨x, w, y, hx, hw, hy, hne⟩
  · rintro ⟨x, w, y, hx, hw, hy, hne⟩
    exact ⟨x, hx, y, ⟨w, hw, hy⟩, hne⟩

/-- A state with at most one edge for each symbol that has a transform offers each only once. -/
theorem offersOf_eq_toList
    (hsingle : ∀ s c, (a.attached? s c).isSome → (a.edgesOf s).countP (·.symbol = c) ≤ 1) :
    a.offersOf s slot = (a.carried? s slot).toList := by
  cases slot with
  | default => rfl
  | symbol c =>
    cases hn : a.attached? s c with
    | none => simp [offersOf, carried?, hn]
    | some n =>
      refine eq_toList ?_ fun _ => mem_offersOf
      calc (a.offersOf s (.symbol c)).length
          = (a.edgesOf s).countP (·.symbol = c) := by
            simp only [offersOf, hn, List.length_filterMap_eq_countP]
            refine List.countP_congr fun e _ => ?_
            by_cases he : e.symbol = c <;> simp [he]
        _ ≤ 1 := hsingle s c (by simp [hn])

/-- The members whose ordinary transform in a slot differs from the chosen one. -/
def passedOver (a : Automaton) (members : List StateId) (slot : Slot) : List StateId :=
  members.filter fun m =>
    (a.carried? m slot).any (a.differs (a.firstChoice (a.offered members slot)))

theorem mem_passedOver : s ∈ a.passedOver members slot ↔ s ∈ members ∧
    ∃ n x w y, a.carried? s slot = some n ∧ a.written? n = some x ∧
      a.firstChoice (a.offered members slot) = some w ∧ a.written? w = some y ∧ x ≠ y := by
  simp only [passedOver, List.mem_filter, Option.any_eq_true, differs_iff]
  refine and_congr_right fun _ => exists_congr fun n => ?_
  simp only [← exists_and_left]

theorem choose_snd (hreg : a.Registered)
    (hsingle : ∀ s c, (a.attached? s c).isSome → (a.edgesOf s).countP (·.symbol = c) ≤ 1) :
    ((a.choose (a.offered members slot)).map Prod.snd).getD 0 =
      (a.passedOver members slot).length := by
  have hoffered : a.offered members slot = members.filterMap (a.carried? · slot) := by
    rw [offered_eq_flatMap, List.filterMap_eq_flatMap_toList]
    exact List.flatMap_congr fun s _ => offersOf_eq_toList hsingle
  rw [choose_eq hreg.exists_of_mem_offered, Option.map_some, Option.getD_some, passedOver,
    ← List.countP_eq_length_filter]
  generalize a.differs (a.firstChoice (a.offered members slot)) = q
  rw [hoffered, List.countP_filterMap]
  refine List.countP_congr fun m _ => ?_
  cases a.carried? m slot <;> rfl

end Automaton

namespace Table

variable {a : Automaton} {t : Table} {r : Row} {limit : Nat} {id : StateId} {slot : Slot}
  {n : TransformId}

/-- The transform of a state in a slot. -/
def transform? (t : Table) (id : StateId) : Slot → Option TransformId
  | .symbol c => (t.row? id).bind (·.attached.lookup c)
  | .default => (t.row? id).bind Row.default

/-- The states, slots and members where the member carries an ordinary transform and the slot has
got an ordinary one that writes something else. -/
def passedOver (t : Table) : Set (StateId × Slot × StateId) :=
  {p | p.1 ∈ t.states ∧ p.2.2 ∈ t.register.members p.1 ∧
    ∃ n x w y, t.automaton.carried? p.2.2 p.2.1 = some n ∧ t.automaton.written? n = some x ∧
      t.transform? p.1 p.2.1 = some w ∧ t.automaton.written? w = some y ∧ x ≠ y}

/-- What is passed over in the slots of a row. -/
def passedIn (a : Automaton) (r : Row) : List (StateId × Slot × StateId) :=
  (a.slots r.members).flatMap fun slot => (a.passedOver r.members slot).map fun m => (r.id, slot, m)

theorem mem_passedIn {m : StateId} : (id, slot, m) ∈ passedIn a r ↔
    r.id = id ∧ slot ∈ a.slots r.members ∧ m ∈ a.passedOver r.members slot := by
  simp only [passedIn, List.mem_flatMap, List.mem_map, Prod.mk.injEq]
  constructor
  · rintro ⟨slot, hslot, m, hm, rfl, rfl, rfl⟩
    exact ⟨rfl, hslot, hm⟩
  · rintro ⟨rfl, hslot, hm⟩
    exact ⟨slot, hslot, m, hm, rfl, rfl, rfl⟩

theorem nodup_passedIn (hmembers : r.members.Nodup) : (passedIn a r).Nodup := by
  refine List.nodup_flatMap.mpr ⟨fun slot _ => ?_, a.nodup_slots.imp fun hne => ?_⟩
  · exact (hmembers.filter _).map fun _ _ h => (Prod.mk.inj (Prod.mk.inj h).2).2
  · rintro ⟨id, slot, m⟩ hm hm'
    obtain ⟨_, -, h⟩ := List.mem_map.mp hm
    obtain ⟨_, -, h'⟩ := List.mem_map.mp hm'
    cases h
    cases h'
    exact hne rfl

theorem nodup_flatMap_passedIn (hids : t.states.Nodup) (hmembers : ∀ r ∈ t.rows, r.members.Nodup) :
    (t.rows.flatMap (passedIn a)).Nodup := by
  refine List.nodup_flatMap.mpr ⟨fun r hr => nodup_passedIn (hmembers r hr), ?_⟩
  refine (List.pairwise_map.mp hids).imp fun hne => ?_
  rintro ⟨id, slot, m⟩ hm hm'
  exact hne ((mem_passedIn.mp hm).1.trans (mem_passedIn.mp hm').1.symm)

/-- The rows of a table take over what is chosen among the offers of their members. -/
theorem transform?_eq_choose (ht : t.Exact a) (hr : r ∈ t.rows)
    (hrow : ∃ ms, a.row r.id r.members ms = some r) :
    t.transform? r.id slot = (a.choose (a.offered r.members slot)).bind Prod.fst := by
  obtain ⟨ms, hrow⟩ := hrow
  have hfind : t.row? r.id = some r := (row?_eq_some_iff ht.nodup).mpr ⟨hr, rfl⟩
  cases slot with
  | default =>
    rw [transform?, hfind, Option.bind_some, Automaton.default_row hrow]
  | symbol c =>
    rw [transform?, hfind, Option.bind_some, Automaton.lookup_attached_row hrow]

theorem conflicts_eq_length (hreg : a.Registered)
    (hsingle : ∀ s c, (a.attached? s c).isSome → (a.edgesOf s).countP (·.symbol = c) ≤ 1)
    (hrows : ∀ r ∈ t.rows, ∃ ms, a.row r.id r.members ms = some r) :
    t.conflicts = (t.rows.flatMap (passedIn a)).length := by
  have hrow : ∀ r ∈ t.rows, r.conflicts = (passedIn a r).length := by
    intro r hr
    obtain ⟨ms, hms⟩ := hrows r hr
    have hslot : ∀ slot ∈ a.slots r.members,
        ((a.choose (a.offered r.members slot)).map Prod.snd).getD 0 =
          ((a.passedOver r.members slot).map fun m => (r.id, slot, m)).length := by
      intro slot _
      rw [Automaton.choose_snd hreg hsingle, List.length_map]
    rw [Automaton.conflicts_row hms, foldl_add_eq_length hslot, Nat.zero_add]
    rfl
  rw [conflicts, foldl_add_eq_length hrow, Nat.zero_add]

/-- What is passed over in a table is what is passed over in its rows. -/
theorem mem_passedOver_iff (ht : t.Exact a) (ha : t.automaton = a)
    (hchosen : ∀ r ∈ t.rows, ∀ slot,
      t.transform? r.id slot = a.firstChoice (a.offered r.members slot))
    {p : StateId × Slot × StateId} : p ∈ t.passedOver ↔ p ∈ t.rows.flatMap (passedIn a) := by
  obtain ⟨id, slot, m⟩ := p
  rw [List.mem_flatMap]
  constructor
  · rintro ⟨hid, hm, n, x, w, y, hn, hx, hw, hy, hne⟩
    obtain ⟨r, hr, rfl⟩ := List.mem_map.mp hid
    simp only [(ht.rows r hr).holds.members_eq, hchosen r hr, ha] at hm hn hx hw hy
    refine ⟨r, hr, mem_passedIn.mpr ⟨rfl, Automaton.mem_slots_of_carried hm hn, ?_⟩⟩
    exact Automaton.mem_passedOver.mpr ⟨hm, n, x, w, y, hn, hx, hw, hy, hne⟩
  · rintro ⟨r, hr, hmem⟩
    obtain ⟨rfl, -, hm⟩ := mem_passedIn.mp hmem
    obtain ⟨hm, hrest⟩ := Automaton.mem_passedOver.mp hm
    refine ⟨List.mem_map_of_mem hr, ?_⟩
    simp only [(ht.rows r hr).holds.members_eq, hchosen r hr, ha]
    exact ⟨hm, hrest⟩

/-- The transform that a state of a table has in a slot is the one that prevails among its members.
The conflicts are the members passed over, provided that no state has two edges for a symbol that
has a transform. -/
theorem transform?_eq_some_iff_prevails (ha : a.Built) (hreg : a.Registered)
    (hstart : a.closure [Automaton.start] ≠ []) (h : ofAutomaton a limit = .ok t) :
    (∀ id ∈ t.states, ∀ slot n,
      t.transform? id slot = some n ↔ a.Prevails (t.register.members id) slot n) ∧
    ((∀ s c, (a.attached? s c).isSome → (a.edgesOf s).countP (·.symbol = c) ≤ 1) →
      (t.conflicts : ℕ∞) = t.passedOver.encard) := by
  have hsize := ha.size_edges
  have ht : t.Exact a := (exact_of_ofAutomaton hsize h).resolve_left fun h => hstart h.1
  have hrows := rows_made hsize hstart (ofAutomaton_eq_ok.mp h)
  have hchosen : ∀ r ∈ t.rows, ∀ slot,
      t.transform? r.id slot = a.firstChoice (a.offered r.members slot) := fun r hr slot => by
    rw [transform?_eq_choose ht hr (hrows r hr), Automaton.choose_eq hreg.exists_of_mem_offered,
      Option.bind_some]
  have hascending {r : Row} (hr : r ∈ t.rows) : r.members.Pairwise (· < ·) :=
    (ht.rows r hr).closure.pairwise
  constructor
  · intro id hid slot n
    obtain ⟨r, hr, rfl⟩ := List.mem_map.mp hid
    rw [hchosen r hr, (ht.rows r hr).holds.members_eq,
      Automaton.firstChoice_offered_eq_some_iff (hascending hr)]
  · intro hsingle
    have hpassed : t.passedOver = ((t.rows.flatMap (passedIn a)).toFinset : Set _) := by
      ext p
      rw [Finset.mem_coe, List.mem_toFinset, mem_passedOver_iff ht (automaton_eq h) hchosen]
    have hnodup : (t.rows.flatMap (passedIn a)).Nodup :=
      nodup_flatMap_passedIn ht.nodup fun r hr => (hascending hr).imp Nat.ne_of_lt
    rw [hpassed, Set.encard_coe_eq_coe_finsetCard, List.toFinset_card_of_nodup hnodup,
      conflicts_eq_length hreg hsingle hrows]

theorem threeBranches_single (s : StateId) (c : Symbol)
    (h : (threeBranches.attached? s c).isSome) :
    (threeBranches.edgesOf s).countP (·.symbol = c) ≤ 1 := by
  have hkeys : threeBranches.attached.keys =
      [(2, .char 'b'), (3, .char 'b'), (4, .char 'b')] := by decide +kernel
  have hmem : (s, c) ∈ threeBranches.attached.keys := by
    rw [Std.TreeMap.mem_keys]
    exact Std.TreeMap.mem_iff_isSome_getElem?.mpr h
  rw [hkeys] at hmem
  simp only [List.mem_cons, Prod.mk.injEq, List.not_mem_nil, or_false] at hmem
  obtain ⟨rfl, rfl⟩ | ⟨rfl, rfl⟩ | ⟨rfl, rfl⟩ := hmem <;> decide

theorem prevails_threeBranches :
    ∃ t, threeBranches.closure [Automaton.start] ≠ [] ∧ ofAutomaton threeBranches 3 = .ok t ∧
      (∀ id ∈ t.states, ∀ slot n, t.transform? id slot = some n ↔
        threeBranches.Prevails (t.register.members id) slot n) ∧
      (t.conflicts : ℕ∞) = t.passedOver.encard := by
  have hstart : threeBranches.closure [Automaton.start] ≠ [] := by decide +kernel
  obtain ⟨t, ht⟩ : ∃ t, ofAutomaton threeBranches 3 = .ok t := exists_ok (by decide +kernel)
  obtain ⟨hprevails, hconflicts⟩ :=
    transform?_eq_some_iff_prevails threeBranches_built threeBranches_registered hstart ht
  exact ⟨t, hstart, ht, hprevails, hconflicts threeBranches_single⟩

/-- What the second branch writes prevails over the null transform and the third branch's text. -/
example : (ofAutomaton threeBranches 3).toOption.map conflicts = some 1 := by decide +kernel

end Table

end SoundChange
