import SoundChange.SortedSet

/-!
# Segment tries

The prefix tree of a set of segments. Its cells are numbered in the order in which they are made,
the root first, and linked in both directions: a cell has the number of its parent and those of its
children, which are in the order of their characters. A segment is added along its characters, each
of which leads to a child that is there or to a new one (`Trie.Cursor.advance`), and the last cell
is marked with it.

A trie unrolls into a forest (`Trie.forest`), along which its segments are read when the automaton
of a rule is assembled.
-/

namespace SoundChange

/-- A forest of characters: a branch tells whether a segment ends there, and holds the branches
below it and those beside it. -/
inductive Forest where
  | empty
  | branch (c : Char) (isMember : Bool) (below beside : Forest)
  deriving DecidableEq, Repr, Inhabited

namespace Forest

/-- There are no branches. -/
def isEmpty : Forest → Bool
  | empty => true
  | branch .. => false

/-- The characters of the first branches, in order. -/
def firstChars : Forest → List Char
  | empty => []
  | branch c _ _ beside => c :: firstChars beside

end Forest

/-- A cell of a trie: the character that leads to it, its links, and the segment that ends there. -/
structure Trie.Cell where
  char? : Option Char := none
  parent : Option Nat := none
  /-- In the order of their characters. -/
  children : List Nat := []
  member : Option Text := none
  deriving DecidableEq, Repr

/-- The prefix tree of a set of segments, cell by cell; the root is cell 0. -/
structure Trie where
  cells : Array Trie.Cell
  pos : 0 < cells.size
  parent_lt {i j : Nat} {x : Trie.Cell} : cells[i]? = some x → x.parent = some j → j < i
  lt_child {i j : Nat} {x : Trie.Cell} :
    cells[i]? = some x → j ∈ x.children → i < j ∧ j < cells.size

namespace Trie

/-- The trie of no segments. -/
def new : Trie where
  cells := #[{}]
  pos := Nat.one_pos
  parent_lt {i j x} hx hj := by
    match i with
    | 0 =>
      cases hx
      cases hj
  lt_child {i j x} hx hj := by
    match i with
    | 0 =>
      cases hx
      cases hj

/-- The number of cells. -/
def size (t : Trie) : Nat := t.cells.size

/-- The character that leads to a cell; none leads to the root. -/
def charAt (t : Trie) (i : Nat) : Option Char := t.cells[i]?.bind Cell.char?

/-- The parent of a cell; the root has none. -/
def parentOf (t : Trie) (i : Nat) : Option Nat := t.cells[i]?.bind Cell.parent

/-- The children of a cell. -/
def childrenOf (t : Trie) (i : Nat) : List Nat := (t.cells[i]?.map Cell.children).getD []

/-- The segment that ends at a cell. -/
def memberAt (t : Trie) (i : Nat) : Option Text := t.cells[i]?.bind Cell.member

/-- The child of a cell to which a character leads. -/
def child (t : Trie) (i : Nat) (c : Char) : Option Nat :=
  (t.childrenOf i).find? fun j => t.charAt j = some c

/-- The character that leads to a cell comes before another one. -/
def precedes (t : Trie) (c : Char) (j : Nat) : Bool := (t.charAt j).all (Ranked.before · c)

/-- The children with a new one, to which a character leads, behind those that precede it. -/
def placeChild (t : Trie) (c : Char) (new : Nat) (children : List Nat) : List Nat :=
  children.takeWhile (t.precedes c) ++ new :: children.dropWhile (t.precedes c)

theorem mem_placeChild {t : Trie} {c : Char} {new j : Nat} {children : List Nat} :
    j ∈ t.placeChild c new children ↔ j = new ∨ j ∈ children := by
  rw [placeChild, List.mem_append, List.mem_cons, or_left_comm, ← List.mem_append,
    List.takeWhile_append_dropWhile]

/-- The cells with a new one behind them, which a character leads to from the cell `i`. -/
def cellsWithChild (t : Trie) (i : Nat) (c : Char) : Array Cell :=
  (t.cells.modify i fun x => { x with children := t.placeChild c t.size x.children }).push
    { char? := some c, parent := some i }

theorem getElem?_cellsWithChild (t : Trie) (i k : Nat) (c : Char) :
    (t.cellsWithChild i c)[k]? = if k = t.size then some { char? := some c, parent := some i }
      else if i = k then
        t.cells[k]?.map fun x => { x with children := t.placeChild c t.size x.children }
      else t.cells[k]? := by
  rw [cellsWithChild, Array.getElem?_push, Array.size_modify, size, Array.getElem?_modify]

/-- Adds a cell to which a character leads from the cell `i`. -/
def addChild (t : Trie) (i : Nat) (hi : i < t.size) (c : Char) : Trie where
  cells := t.cellsWithChild i c
  pos := by simp [cellsWithChild]
  parent_lt {k j x} hx hj := by
    rw [getElem?_cellsWithChild] at hx
    split at hx
    · cases hx
      cases hj
      omega
    · split at hx
      · obtain ⟨y, hy, rfl⟩ := Option.map_eq_some_iff.mp hx
        exact t.parent_lt hy hj
      · exact t.parent_lt hx hj
  lt_child {k j x} hx hj := by
    have hsize : (t.cellsWithChild i c).size = t.size + 1 := by simp [cellsWithChild, size]
    rw [getElem?_cellsWithChild] at hx
    rw [hsize]
    split at hx
    · cases hx
      cases hj
    · split at hx
      · obtain ⟨y, hy, rfl⟩ := Option.map_eq_some_iff.mp hx
        rcases mem_placeChild.mp hj with rfl | hj
        · omega
        · have hlt := t.lt_child hy hj
          exact ⟨hlt.1, Nat.lt_succ_of_lt hlt.2⟩
      · have hlt := t.lt_child hx hj
        exact ⟨hlt.1, Nat.lt_succ_of_lt hlt.2⟩

/-- Marks a cell with the segment that ends there. -/
def mark (t : Trie) (i : Nat) (segment : Text) : Trie where
  cells := t.cells.modify i fun x => { x with member := some segment }
  pos := by simpa using t.pos
  parent_lt {k j x} hx hj := by
    rw [Array.getElem?_modify] at hx
    split at hx
    · obtain ⟨y, hy, rfl⟩ := Option.map_eq_some_iff.mp hx
      exact t.parent_lt hy hj
    · exact t.parent_lt hx hj
  lt_child {k j x} hx hj := by
    rw [Array.size_modify]
    rw [Array.getElem?_modify] at hx
    split at hx
    · obtain ⟨y, hy, rfl⟩ := Option.map_eq_some_iff.mp hx
      exact t.lt_child hy hj
    · exact t.lt_child hx hj

/-- A trie and one of its cells. -/
structure Cursor where
  trie : Trie
  place : Nat
  lt_size : place < trie.size

/-- Goes on to the child to which a character leads, which is added if there is none. -/
def Cursor.advance (p : Cursor) (c : Char) : Cursor :=
  match h : p.trie.child p.place c with
  | some j =>
    { trie := p.trie
      place := j
      lt_size := by
        have hj := List.mem_of_find?_eq_some h
        rw [childrenOf] at hj
        cases hx : p.trie.cells[p.place]? with
        | none => simp [hx] at hj
        | some x => exact (p.trie.lt_child hx (by simpa [hx] using hj)).2 }
  | none =>
    { trie := p.trie.addChild p.place p.lt_size c
      place := p.trie.size
      lt_size := by simp [size, addChild, cellsWithChild] }

/-- Adds a segment. -/
def insert (t : Trie) (segment : Text) : Trie :=
  let last := segment.foldl Cursor.advance ⟨t, 0, t.pos⟩
  last.trie.mark last.place segment

/-- The trie of a set of segments; the empty one is ignored. -/
def ofSet (members : SortedSet Text) : Trie :=
  (members.toList.filter fun w => !w.isEmpty).foldl insert new

/-- The trie has no segments. -/
def isEmpty (t : Trie) : Bool := (t.childrenOf 0).isEmpty

/-- The characters that segments begin with, in order. -/
def firstChars (t : Trie) : List Char :=
  (SortedSet.ofList ((t.childrenOf 0).filterMap t.charAt)).toList

/-- The cell to which some characters lead. -/
def walk (t : Trie) : Nat → Text → Option Nat
  | i, [] => some i
  | i, c :: w => (t.child i c).bind fun j => walk t j w

/-- The path is a segment of the trie. -/
def contains (t : Trie) (w : Text) : Bool :=
  (t.walk 0 w).any fun i => i ≠ 0 && (t.memberAt i).isSome

/-- The segments of the trie, in order. -/
def members (t : Trie) : List Text :=
  (t.cells.toList.filterMap Cell.member).mergeSort fun v w => !Ranked.before w v

theorem parentOf_lt {t : Trie} {i j : Nat} (h : t.parentOf i = some j) : j < i := by
  obtain ⟨x, hx, hj⟩ := Option.bind_eq_some_iff.mp h
  exact t.parent_lt hx hj

theorem lt_of_mem_childrenOf {t : Trie} {i j : Nat} (h : j ∈ t.childrenOf i) :
    i < j ∧ j < t.size := by
  rw [childrenOf] at h
  cases hx : t.cells[i]? with
  | none => simp [hx] at h
  | some x => exact t.lt_child hx (by simpa [hx] using h)

/-- The characters on the way from the root to a cell, found by going up. -/
def path (t : Trie) (i : Nat) : Text :=
  match _h : t.parentOf i with
  | some j => path t j ++ (t.charAt i).toList
  | none => (t.charAt i).toList
termination_by i
decreasing_by exact parentOf_lt _h

/-- The branches below a cell. -/
def below (t : Trie) (i : Nat) : Forest :=
  (t.childrenOf i).attach.foldr (fun j beside =>
    match t.charAt j.1 with
    | some c => .branch c (t.memberAt j.1).isSome (below t j.1) beside
    | none => beside) .empty
termination_by t.size - i
decreasing_by
  have hj := lt_of_mem_childrenOf j.2
  omega

/-- The trie as a forest. -/
def forest (t : Trie) : Forest := t.below 0

/-- A cell with its path. -/
structure Node extends Cell where
  path : Text
  deriving DecidableEq, Repr

/-- The cells of a trie by number, with their paths. -/
def nodes (t : Trie) : List Node := t.cells.toList.mapIdx fun i x => { x with path := t.path i }

end Trie

end SoundChange
