import SoundChange.Statement.Reader

/-!
# What known categories are read for

The categories already read decide only whether a bare word is a segment or stands for a set. So a
file is read alike with two lists of them that agree on its bare words
(`Statement.readFrom_congr`).
-/

namespace SoundChange

variable {known known' : List Text} {t : Token} {ts ts' : List Token}

/-- The same bare words of some tokens stand for categories. -/
def AgreeOn (known known' : List Text) (ts : List Token) : Prop :=
  ∀ t ∈ ts, t.kind = .word → (t.text ∈ known ↔ t.text ∈ known')

namespace AgreeOn

theorem of_subset (h : AgreeOn known known' ts) (hts : ts' ⊆ ts) : AgreeOn known known' ts' :=
  fun t ht => h t (hts ht)

theorem append_left (h : AgreeOn known known' ts) (more : List Text) :
    AgreeOn (more ++ known) (more ++ known') ts := fun t ht hword => by
  rw [List.mem_append, List.mem_append, h t ht hword]

/-- A name that is known already, or that is no bare word of the tokens, makes no difference. -/
theorem append_of_forall {more : List Text}
    (h : ∀ name ∈ more, name ∈ known ∨ ∀ t ∈ ts, t.kind = .word → t.text ≠ name) :
    AgreeOn (more ++ known) known ts := by
  refine fun t ht hword => ⟨fun hmem => ?_, List.mem_append_right _⟩
  rcases List.mem_append.mp hmem with hmore | hknown
  · exact (h _ hmore).resolve_right fun hne => hne t ht hword rfl
  · exact hknown

end AgreeOn

theorem Category.readMembers_congr (h : AgreeOn known known' ts) (c : Category)
    (b : Option Bracket) : c.readMembers known b ts = c.readMembers known' b ts := by
  induction ts generalizing c b with
  | nil => cases b <;> rfl
  | cons t ts ih =>
    have ih := ih (h.of_subset (List.subset_cons_self ..))
    cases b with
    | some b => simp only [readMembers, ih]
    | none =>
      rw [readMembers, readMembers]
      split
      · rename_i hword
        simp only [h t (List.mem_cons_self ..) hword, ih]
      all_goals simp only [ih]

namespace Draft

theorem step_congr (h : t.kind = .word → (t.text ∈ known ↔ t.text ∈ known')) (d : Draft) :
    d.step known t = d.step known' t := by
  by_cases hword : t.kind = .word
  · simp only [step, h hword]
  · unfold step
    dsimp only
    split
    · rfl
    · split
      · rfl
      · rfl
      · simp only [if_neg hword]

theorem read_congr (h : AgreeOn known known' ts) (d : Draft) :
    d.read known ts = d.read known' ts := by
  induction ts generalizing d with
  | nil => rfl
  | cons t ts ih =>
    have ih := ih (h.of_subset (List.subset_cons_self ..))
    simp only [read, step_congr (h t (List.mem_cons_self ..)), ih]

end Draft

namespace Statement

theorem read_congr (h : AgreeOn known known' ts) : read known ts = read known' ts := by
  have hcategory (c : Category) :
      c.readMembers known none (ts.drop 2) = c.readMembers known' none (ts.drop 2) :=
    c.readMembers_congr (h.of_subset (List.drop_subset ..)) none
  simp only [read, hcategory, Draft.read_congr h]

/-- A file is read alike with categories that agree on its bare words. -/
theorem readFrom_congr (h : AgreeOn known known' ts) : readFrom known ts = readFrom known' ts := by
  induction known, ts using readFrom.induct generalizing known' with
  | case1 => rw [readFrom, readFrom]
  | case2 known t ts hnewline ih =>
    rw [readFrom, readFrom, if_pos hnewline, if_pos hnewline,
      ih (h.of_subset (List.subset_cons_self ..))]
  | case3 known t ts hnewline hend =>
    rw [readFrom, readFrom, if_neg hnewline, if_neg hnewline, if_pos hend, if_pos hend]
  | case4 known t ts hnewline hend r =>
    rename_i ih
    have hrest : (read known (t :: ts)).rest ⊆ t :: ts := (read_suffix known _).subset
    rw [readFrom, readFrom, if_neg hnewline, if_neg hnewline, if_neg hend, if_neg hend,
      ← read_congr h]
    exact congrArg _ (ih ((h.of_subset hrest).append_left _))

end Statement

end SoundChange
