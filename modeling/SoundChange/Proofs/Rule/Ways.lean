import SoundChange.Proofs.Rule.Derivation

/-!
# Ways in the order of preference

A derivation says one way in which a rule can read some symbols. `Rule.ways` lists all the ways of
reading a beginning of them, in the order in which they are preferred: an optional element is read
before it is left out, the branches of a choice come in their order, and of the segments of a set
the longer ones come first. Each way has its pieces and the symbols that it leaves;
`Rule.preferred?` is the first one that leaves none.

The members of a set are found through the forest of its trie; `Forest.mem_beginnings` and
`Forest.pairwise_beginnings` say which they are and that they get shorter.
-/

namespace SoundChange

/-- The ways of reading a beginning of some symbols, in the order of preference: their pieces and
what they leave. -/
abbrev Ways := List Symbol → List (List Piece × List Symbol)

/-! ## Segments that begin some symbols -/

namespace Forest

variable {t : Forest} {w : List Symbol}

/-- The segments of a forest with which some symbols begin, the longest first. -/
def beginnings : Forest → List Symbol → List Text
  | empty, _ => []
  | branch c isMember below beside, w =>
    if w.head? = some (.char c) then
      (beginnings below w.tail).map (c :: ·) ++ if isMember then [[c]] else []
    else beginnings beside w

theorem beginnings_cons_self {c : Char} {isMember : Bool} {below beside : Forest} :
    (branch c isMember below beside).beginnings (.char c :: w) =
      (below.beginnings w).map (c :: ·) ++ if isMember then [[c]] else [] := by
  rw [beginnings, if_pos (List.head?_cons ..), List.tail_cons]

theorem beginnings_of_head? {c : Char} {isMember : Bool} {below beside : Forest}
    (h : w.head? ≠ some (.char c)) :
    (branch c isMember below beside).beginnings w = beside.beginnings w := by
  rw [beginnings, if_neg h]

/-- The segments found are those with which the symbols begin. -/
theorem mem_beginnings : ∀ {t : Forest} {w : List Symbol} {x : Text}, t.WellFormed →
    (x ∈ t.beginnings w ↔ t.Has x ∧ Symbol.ofText x <+: w)
  | empty, w, x, _ => by simp [beginnings, Has]
  | branch c isMember below beside, w, x, hwf => by
    obtain ⟨-, hbefore, hwfBelow, hwfBeside⟩ := hwf
    by_cases hw : w.head? = some (.char c)
    · obtain ⟨v, rfl⟩ := List.head?_eq_some_iff.mp hw
      -- the segments beside begin with other characters
      have hbeside : ¬ (beside.Has x ∧ Symbol.ofText x <+: .char c :: v) := by
        rintro ⟨hx, hprefix⟩
        cases x with
        | nil => exact not_has_nil hx
        | cons d x =>
          obtain ⟨heq, -⟩ := List.cons_prefix_cons.mp hprefix
          cases heq
          exact absurd (hbefore c (mem_firstChars_of_has hx)) (by simp [Ranked.irrefl])
      rw [beginnings_cons_self, List.mem_append, List.mem_map, Has, or_and_right,
        or_iff_left hbeside]
      constructor
      · rintro (⟨x, hx, rfl⟩ | hx)
        · obtain ⟨hx, hprefix⟩ := (mem_beginnings hwfBelow).mp hx
          exact ⟨⟨x, rfl, .inr hx⟩, List.cons_prefix_cons.mpr ⟨rfl, hprefix⟩⟩
        · split at hx
          · rename_i hmember
            obtain rfl := List.mem_singleton.mp hx
            exact ⟨⟨[], rfl, .inl ⟨rfl, hmember⟩⟩,
              List.cons_prefix_cons.mpr ⟨rfl, List.nil_prefix⟩⟩
          · cases hx
      · rintro ⟨⟨x, rfl, ⟨rfl, hmember⟩ | hx⟩, hprefix⟩
        · exact .inr (by rw [if_pos hmember]; exact List.mem_singleton.mpr rfl)
        · exact .inl ⟨x, (mem_beginnings hwfBelow).mpr
            ⟨hx, (List.cons_prefix_cons.mp hprefix).2⟩, rfl⟩
    · rw [beginnings_of_head? hw, mem_beginnings hwfBeside, Has, or_and_right, iff_or_self]
      rintro ⟨⟨x, rfl, -⟩, v, rfl⟩
      exact absurd rfl hw

/-- The segments found get shorter. -/
theorem pairwise_beginnings : ∀ {t : Forest} {w : List Symbol}, t.WellFormed →
    (t.beginnings w).Pairwise fun x y => y.length < x.length
  | empty, w, _ => by simp [beginnings]
  | branch c isMember below beside, w, hwf => by
    obtain ⟨-, -, hwfBelow, hwfBeside⟩ := hwf
    by_cases hw : w.head? = some (.char c)
    · obtain ⟨v, rfl⟩ := List.head?_eq_some_iff.mp hw
      rw [beginnings_cons_self, List.pairwise_append, List.pairwise_map]
      refine ⟨(pairwise_beginnings hwfBelow).imp fun h => ?_, ?_, ?_⟩
      · simpa using h
      · split <;> simp
      · intro x hx y hy
        obtain ⟨z, hz, rfl⟩ := List.mem_map.mp hx
        split at hy
        · obtain rfl := List.mem_singleton.mp hy
          have hne : z ≠ [] := by
            rintro rfl
            exact not_has_nil ((mem_beginnings hwfBelow).mp hz).1
          simpa [List.length_pos_iff] using hne
        · cases hy
    · rw [beginnings_of_head? hw]
      exact pairwise_beginnings hwfBeside

end Forest

/-- The ways of reading a segment of a forest behind a path. -/
def Forest.ways (i : Inventory) (e : Element) (m : Option Emission) (path : Text) (t : Forest) :
    Ways :=
  fun w => (t.beginnings w).map fun x => (rendered i e m (path ++ x), w.drop x.length)

theorem Forest.ways_cons_self {i : Inventory} {e : Element} {m : Option Emission} {path : Text}
    {c : Char} {isMember : Bool} {below beside : Forest} {w : List Symbol} :
    (branch c isMember below beside).ways i e m path (.char c :: w) =
      below.ways i e m (path ++ [c]) w ++
        if isMember then [(rendered i e m (path ++ [c]), w)] else [] := by
  rw [ways, beginnings_cons_self, List.map_append, List.map_map, ways]
  congr 1
  · refine List.map_congr_left fun x _ => ?_
    simp
  · cases isMember <;> rfl

theorem Forest.ways_of_head? {i : Inventory} {e : Element} {m : Option Emission} {path : Text}
    {c : Char} {isMember : Bool} {below beside : Forest} {w : List Symbol}
    (h : w.head? ≠ some (.char c)) :
    (branch c isMember below beside).ways i e m path w = beside.ways i e m path w := by
  rw [ways, beginnings_of_head? h, ways]

/-! ## Ways -/

namespace Ways

/-- Nothing is read. -/
def nothing : Ways := fun w => [([], w)]

/-- There is no way. -/
def none : Ways := fun _ => []

/-- The ways of the first, then those of the second. -/
def orElse (f g : Ways) : Ways := fun w => f w ++ g w

/-- One is read after the other: for each way of the first, all ways of the second. -/
def followedBy (f g : Ways) : Ways := fun w =>
  (f w).flatMap fun x => (g x.2).map fun y => (x.1 ++ y.1, y.2)

/-- A symbol outside the target. -/
def symbol (c : Symbol) : Ways := fun w =>
  if w.head? = some c then [([.kept c], w.tail)] else []

/-- A text that an element stands for. -/
def text (i : Inventory) (e : Element) (m : Option Emission) (text : Text) : Ways := fun w =>
  if Symbol.ofText text <+: w then [(rendered i e m text, w.drop text.length)] else []

/-- The segments of a set. -/
def segments (i : Inventory) (e : Element) (m : Option Emission) : Ways := fun w =>
  match i.trie e with
  | .ok t => t.forest.ways i e m [] w
  | .error _ => []

theorem text_append {i : Inventory} {e : Element} {m : Option Emission} {read : Text}
    {v : List Symbol} :
    text i e m read (Symbol.ofText read ++ v) = [(rendered i e m read, v)] := by
  have hlength : (Symbol.ofText read).length = read.length := List.length_map _
  rw [text, if_pos (List.prefix_append ..), List.drop_left' hlength]

theorem orElse_none (f : Ways) : f.orElse none = f := funext fun _ => List.append_nil _

theorem followedBy_nothing (f : Ways) : f.followedBy nothing = f := by
  funext w
  simp [followedBy, nothing]

end Ways

mutual

/-- The ways of reading an element; `m` is what replaces it in the target, and nothing outside. -/
def Element.ways (i : Inventory) (target : Ways) (m : Option Emission) : Element → Ways
  | .utterance text => .text i (.utterance text) m text
  | .set ref => .segments i (.set ref) m
  | .compound refs => .segments i (.compound refs) m
  | .optional body => (waysAll i target (Emission.within m body) body).orElse .nothing
  | .disjunction branches => waysAny i target m branches
  | .boundary edge => .symbol edge.symbol
  | .placeholder => if m.isSome then .nothing else target

/-- The ways of reading a sequence. -/
def Element.waysAll (i : Inventory) (target : Ways) : List Emission → List Element → Ways
  | _, [] => .nothing
  | ms, e :: es => (ways i target ms.head? e).followedBy (waysAll i target ms.tail es)

/-- The ways of reading one of some branches. -/
def Element.waysAny (i : Inventory) (target : Ways) (m : Option Emission) :
    List (List Element) → Ways
  | [] => .none
  | branch :: branches =>
    (waysAll i target (Emission.within m branch) branch).orElse (waysAny i target m branches)

end

namespace Rule

/-- The ways of reading the target of a rule. -/
def targetWays (i : Inventory) (rule : Rule) : Ways :=
  Element.waysAll i .nothing (Emission.shares rule.result [] rule.target) rule.target

/-- The ways of reading a rule. -/
def ways (i : Inventory) (rule : Rule) (strip : Bool) : Ways :=
  Element.waysAll i (rule.targetWays i) [] (rule.environmentFor strip)

/-- The pieces of the first way that reads all symbols. -/
def preferred? (i : Inventory) (rule : Rule) (strip : Bool) (span : List Symbol) :
    Option (List Piece) :=
  ((rule.ways i strip span).find? (·.2.isEmpty)).map (·.1)

end Rule

end SoundChange
