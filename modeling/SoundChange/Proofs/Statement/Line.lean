import SoundChange.Statement.Reader

/-!
# Statements line by line

A statement is read from the tokens of one line. `Reading.Keeps` says this of a reader: what it
finds is settled by the tokens up to the end of the line, and it leaves what follows. Every reader
keeps to its line.
-/

namespace SoundChange

variable {α : Type} {line rest : List Token} {t e : Token} {known : List Text}

/-- The token ends a line. -/
def Token.EndsLine (t : Token) : Prop := t.kind = .newline ∨ t.kind = .endOfFile

theorem Token.not_endsLine_of_kind {kind : TokenKind} (hk : t.kind = kind)
    (h : kind ≠ .newline ∧ kind ≠ .endOfFile) : ¬ t.EndsLine :=
  fun hend => hend.elim (fun h' => h.1 (hk.symm.trans h')) fun h' => h.2 (hk.symm.trans h')

theorem Token.not_endsLine_of_isName (h : t.isName = true) : ¬ t.EndsLine := by
  rintro (hk | hk) <;> simp [isName, hk] at h

/-- Behind a token that ends no line the end of the line is still to come. -/
theorem exists_endsLine_of_cons (hends : ∃ e ∈ t :: rest, e.EndsLine) (ht : ¬ t.EndsLine) :
    ∃ e ∈ rest, e.EndsLine := by
  obtain ⟨e, he, hend⟩ := hends
  exact ⟨e, (List.mem_cons.mp he).resolve_left fun heq => ht (heq ▸ hend), hend⟩

theorem exists_endsLine_of_kind {kind : TokenKind} (hends : ∃ e ∈ t :: rest, e.EndsLine)
    (hk : t.kind = kind) (h : kind ≠ .newline ∧ kind ≠ .endOfFile) : ∃ e ∈ rest, e.EndsLine :=
  exists_endsLine_of_cons hends (Token.not_endsLine_of_kind hk h)

/-- What a reader may leave after a line that ends in `e`: all that follows, and perhaps `e` itself
if that is the end of the file. -/
def LeavesLine (e : Token) (rest left : List Token) : Prop :=
  if e.kind = .newline then left = rest else left = skipLine rest ∨ left = e :: rest

theorem leavesLine_skipLine (hline : ∀ t ∈ line, ¬ t.EndsLine) (he : e.EndsLine) :
    LeavesLine e rest (skipLine (line ++ e :: rest)) := by
  induction line with
  | nil =>
    rw [LeavesLine, List.nil_append, skipLine]
    split
    · rfl
    · rename_i hnewline
      rw [if_pos (he.resolve_left hnewline)]
      exact .inr rfl
  | cons t line ih =>
    rw [List.forall_mem_cons] at hline
    have hskip : skipLine (t :: line ++ e :: rest) = skipLine (line ++ e :: rest) := by
      rw [List.cons_append, skipLine, if_neg fun h => hline.1 (.inl h),
        if_neg fun h => hline.1 (.inr h)]
    rw [hskip]
    exact ih hline.2

namespace Reading

/-- What the reader finds is settled by the line, and it leaves what follows the line. -/
def Keeps (f : List Token → Reading α) (line : List Token) (e : Token) : Prop :=
  ∃ result, ∀ rest, (f (line ++ e :: rest)).result = result ∧
    LeavesLine e rest (f (line ++ e :: rest)).rest

/-- An error at the end of a line. -/
theorem keeps_fail_nil {f : List Token → Reading α} (error : RuleError)
    (h : ∀ rest, f (e :: rest) = .fail error e rest) : Keeps f [] e := by
  refine ⟨.error error, fun rest => ?_⟩
  rw [List.nil_append, h]
  refine ⟨rfl, ?_⟩
  rw [LeavesLine, Reading.fail, recover]
  split
  · rfl
  · exact .inl rfl

/-- An error within a line. -/
theorem keeps_fail_cons {f : List Token → Reading α} (error : RuleError) (ht : ¬ t.EndsLine)
    (hline : ∀ t ∈ line, ¬ t.EndsLine) (he : e.EndsLine)
    (h : ∀ ts, f (t :: ts) = .fail error t ts) : Keeps f (t :: line) e := by
  refine ⟨.error error, fun rest => ?_⟩
  rw [List.cons_append, h]
  refine ⟨rfl, ?_⟩
  rw [Reading.fail, recover, if_neg fun h => ht (.inl h)]
  exact leavesLine_skipLine hline he

theorem keeps_finish {f : List Token → Reading α} (result : Except RuleError α)
    (h : ∀ rest, f (e :: rest) = .finish result e rest) : Keeps f [] e := by
  refine ⟨result, fun rest => ?_⟩
  rw [List.nil_append, h]
  refine ⟨rfl, ?_⟩
  rw [LeavesLine, Reading.finish]
  dsimp only
  split
  · rfl
  · exact .inr rfl

/-- A reader that goes on after a token. -/
theorem Keeps.cons {f g : List Token → Reading α} (h : Keeps g line e)
    (hfg : ∀ ts, f (t :: ts) = g ts) : Keeps f (t :: line) e := by
  obtain ⟨result, hall⟩ := h
  refine ⟨result, fun rest => ?_⟩
  rw [List.cons_append, hfg]
  exact hall rest

theorem keeps_declared (production : Production) (a : α) (hline : ∀ t ∈ line, ¬ t.EndsLine)
    (he : e.EndsLine) : Keeps (declared production a) line e := by
  cases line with
  | nil => exact keeps_finish (.ok a) fun rest => by rw [declared]; exact if_pos he
  | cons t line =>
    rw [List.forall_mem_cons] at hline
    refine keeps_fail_cons (.ofToken production [.newline] t) hline.1 hline.2 he fun ts => ?_
    rw [declared]
    exact if_neg hline.1

end Reading

open Reading (Keeps keeps_fail_nil keeps_fail_cons keeps_finish keeps_declared)

/-! ## The readers -/

/-- A bracket is not open any more at the end of a line. -/
theorem Bracket.step_of_endsLine (b : Bracket) (he : e.EndsLine) :
    ∃ error, b.step e = .failed error := by
  unfold step
  split
  · rw [if_neg]
    · exact ⟨_, rfl⟩
    · rcases he with h | h <;> simp [Token.isName, h]
  · rcases he with h | h
    · rw [h]
      exact ⟨_, rfl⟩
    · rw [h]
      exact ⟨_, rfl⟩

theorem Category.keeps_readMembers (hline : ∀ t ∈ line, ¬ t.EndsLine) (he : e.EndsLine)
    (c : Category) (b : Option Bracket) : Keeps (c.readMembers known b) line e := by
  induction line generalizing c b with
  | nil =>
    cases b with
    | some b =>
      obtain ⟨error, herror⟩ := b.step_of_endsLine he
      refine keeps_fail_nil error fun rest => ?_
      rw [readMembers, herror]
    | none =>
      refine keeps_fail_nil
        (.ofToken .category [.word, .identifier, .openBracket, .closeBrace] e) fun rest => ?_
      rw [readMembers]
      rcases he with h | h <;> rw [h]
  | cons t line ih =>
    rw [List.forall_mem_cons] at hline
    have hnext (c : Category) (b : Option Bracket) := ih hline.2 c b
    cases b with
    | some b =>
      cases hstep : b.step t with
      | more b' =>
        refine (hnext c (some b')).cons fun ts => ?_
        rw [readMembers, hstep]
      | failed error =>
        refine keeps_fail_cons error hline.1 hline.2 he fun ts => ?_
        rw [readMembers, hstep]
      | done element =>
        by_cases hset : ∃ ref, element = .set ref
        · obtain ⟨ref, rfl⟩ := hset
          refine (hnext (c.addInclude ref) none).cons fun ts => ?_
          rw [readMembers, hstep]
        · refine keeps_fail_cons (.defective .category .compoundInCategory b.position) hline.1
            hline.2 he fun ts => ?_
          rw [readMembers, hstep]
          cases element with
          | set ref => exact absurd ⟨ref, rfl⟩ hset
          | _ => rfl
    | none =>
      cases hkind : t.kind with
      | word =>
        by_cases hknown : t.text ∈ known
        · refine (hnext (c.addInclude (.category t.text)) none).cons fun ts => ?_
          rw [readMembers, hkind]
          exact if_pos hknown
        · refine (hnext (c.addMember t.text) none).cons fun ts => ?_
          rw [readMembers, hkind]
          exact if_neg hknown
      | identifier =>
        refine (hnext (c.addInclude (.category t.text)) none).cons fun ts => ?_
        rw [readMembers, hkind]
      | openBracket =>
        refine (hnext c (some { position := t.position })).cons fun ts => ?_
        rw [readMembers, hkind]
      | comma =>
        refine (hnext c none).cons fun ts => ?_
        rw [readMembers, hkind]
      | closeBrace =>
        obtain ⟨result, hall⟩ := keeps_declared .category c hline.2 he
        refine Keeps.cons ⟨result, hall⟩ fun ts => ?_
        rw [readMembers, hkind]
      | _ =>
        refine keeps_fail_cons
          (.ofToken .category [.word, .identifier, .openBracket, .closeBrace] t) hline.1 hline.2 he
          fun ts => ?_
        rw [readMembers, hkind]

/-- Between a base form and its arrow the line does not end: the reader has seen the arrow. -/
theorem FeatureSet.keeps_readMembers (hline : ∀ t ∈ line, ¬ t.EndsLine) (he : e.EndsLine)
    (f : FeatureSet) (slot : Slot) (hslot : ∀ b, slot = .base b → line ≠ []) :
    Keeps (f.readMembers slot) line e := by
  induction line generalizing f slot with
  | nil =>
    cases slot with
    | base b => exact absurd rfl (hslot b rfl)
    | arrow b =>
      refine keeps_fail_nil (.ofToken .member [.word] e) fun rest => ?_
      rw [readMembers, if_neg]
      rcases he with h | h <;> simp [h]
    | between =>
      refine keeps_fail_nil (.ofToken .member [.word, .arrow, .closeBrace] e) fun rest => ?_
      rw [readMembers]
      rcases he with h | h <;> rw [h]
  | cons t line ih =>
    rw [List.forall_mem_cons] at hline
    cases slot with
    | base b =>
      refine (ih hline.2 f (.arrow b) (by simp)).cons fun ts => ?_
      rw [readMembers]
    | arrow b =>
      by_cases hword : t.kind = .word
      · cases hpair : f.addPair b.text t.text with
        | ok g =>
          refine (ih hline.2 g .between (by simp)).cons fun ts => ?_
          rw [readMembers, if_pos hword, hpair]
        | error conflict =>
          refine keeps_fail_cons (.defective .member (.conflict conflict) b.position) hline.1
            hline.2 he fun ts => ?_
          rw [readMembers, if_pos hword, hpair]
      · refine keeps_fail_cons (.ofToken .member [.word] t) hline.1 hline.2 he fun ts => ?_
        rw [readMembers, if_neg hword]
    | between =>
      cases hkind : t.kind with
      | word =>
        -- the reader looks one token ahead, which is still in the line or ends it
        have hahead (rest : List Token) : (line ++ e :: rest).head? = (line ++ [e]).head? := by
          cases line <;> rfl
        cases harrow : (line ++ [e]).head?.any (·.kind = .arrow) with
        | true =>
          have hne : line ≠ [] := by
            rintro rfl
            rcases he with h | h <;> simp [h] at harrow
          obtain ⟨result, hall⟩ := ih hline.2 f (.base t) fun _ _ => hne
          refine ⟨result, fun rest => ?_⟩
          rw [List.cons_append, readMembers, hkind]
          dsimp only
          rw [hahead, harrow]
          exact hall rest
        | false =>
          obtain ⟨result, hall⟩ := ih hline.2 (f.addMember t.text) .between (by simp)
          refine ⟨result, fun rest => ?_⟩
          rw [List.cons_append, readMembers, hkind]
          dsimp only
          rw [hahead, harrow]
          exact hall rest
      | comma =>
        refine (ih hline.2 f .between (by simp)).cons fun ts => ?_
        rw [readMembers, hkind]
      | closeBrace =>
        refine Keeps.cons (keeps_declared .featureSet f hline.2 he) fun ts => ?_
        rw [readMembers, hkind]
      | _ =>
        refine keeps_fail_cons (.ofToken .member [.word, .arrow, .closeBrace] t) hline.1 hline.2 he
          fun ts => ?_
        rw [readMembers, hkind]

namespace Draft

variable {d d' : Draft} {p : Position}

/-- A rule goes on behind no end of a line, and is complete nowhere else. -/
theorem step_of_endsLine (he : e.EndsLine) : d.step known e ≠ .more d' := by
  intro h
  unfold step at h
  dsimp only at h
  split at h
  · rename_i b hb
    obtain ⟨error, herror⟩ := b.step_of_endsLine he
    rw [herror] at h
    cases h
  · rcases he with hkind | hkind
    all_goals
      rw [hkind] at h
      dsimp only at h
      repeat' split at h
      all_goals cases hpart : d.part <;> simp_all [endsPart]

theorem endsLine_of_step_done {r : Except RuleError (Rule × Position)}
    (h : d.step known t = .done r) : t.EndsLine := by
  have hpart := part_of_step_done h
  unfold step at h
  dsimp only at h
  split at h
  · split at h
    · cases h
    · exact absurd h (proceed_ne_done _ _)
    · cases h
  split at h
  · cases h
  · split at h
    · exact absurd h (proceed_ne_done _ _)
    · cases h
  split at h
  · rename_i hend
    rw [hpart] at hend
    simpa [endsPart, Token.EndsLine] using (Bool.and_eq_true_iff.mp hend).2
  · repeat' split at h
    all_goals first
      | cases h
      | exact absurd h (proceed_ne_done _ _)

theorem keeps_read (hline : ∀ t ∈ line, ¬ t.EndsLine) (he : e.EndsLine) (d : Draft) :
    Keeps (d.read known) line e := by
  induction line generalizing d with
  | nil =>
    cases hstep : d.step known e with
    | more d' => exact absurd hstep (step_of_endsLine he)
    | done r =>
      refine keeps_finish r fun rest => ?_
      rw [read, hstep]
    | failed error =>
      refine keeps_fail_nil error fun rest => ?_
      rw [read, hstep]
  | cons t line ih =>
    rw [List.forall_mem_cons] at hline
    cases hstep : d.step known t with
    | more d' =>
      refine (ih hline.2 d').cons fun ts => ?_
      rw [read, hstep]
    | done r => exact absurd (endsLine_of_step_done hstep) hline.1
    | failed error =>
      refine keeps_fail_cons error hline.1 hline.2 he fun ts => ?_
      rw [read, hstep]

end Draft

namespace Statement

/-! ## Statements -/

/-- A declaration begins with its name and the brace. -/
theorem form_eq_category {name : Text} {ts : List Token} (h : form ts = .category name) :
    ∃ a b rest, ts = a :: b :: rest ∧ a.isName = true ∧ b.kind = .openBrace := by
  unfold form at h
  split at h
  · rename_i a b rest
    split at h
    · rename_i hcategory
      exact ⟨a, b, rest, rfl, by simpa using hcategory⟩
    · split at h
      · split at h <;> cases h
      · cases h
  · cases h

theorem form_eq_featureSet {name : Text} {ts : List Token} (h : form ts = .featureSet name) :
    ∃ a b c d rest, ts = a :: b :: c :: d :: rest ∧ a.kind = .openBracket ∧ b.isName = true ∧
      c.kind = .closeBracket ∧ d.kind = .openBrace := by
  unfold form at h
  split at h
  · rename_i a b rest
    split at h
    · cases h
    · split at h
      · rename_i c d rest
        split at h
        · rename_i hfeature
          exact ⟨a, b, c, d, rest, rfl, by simpa [and_assoc] using hfeature⟩
        · cases h
      · cases h
  · cases h

/-- What begins neither like a category nor like a feature-set is a rule. -/
theorem form_of_rule {ts : List Token}
    (hcategory : ∀ a b rest, ts = a :: b :: rest → ¬ (a.isName = true ∧ b.kind = .openBrace))
    (hfeature : ∀ a b c d rest, ts = a :: b :: c :: d :: rest →
      ¬ (a.kind = .openBracket ∧ b.isName = true ∧ c.kind = .closeBracket ∧ d.kind = .openBrace)) :
    form ts = .rule := by
  unfold form
  split
  · rename_i a b rest
    rw [if_neg (by simpa using hcategory a b rest rfl)]
    split
    · rename_i c d rest
      exact if_neg (by simpa [and_assoc] using hfeature a b c d rest rfl)
    · rfl
  · rfl

/-- What kind of statement begins a line is settled by the line. -/
theorem form_append (line : List Token) (he : e.EndsLine) (rest : List Token) :
    form (line ++ e :: rest) = form line := by
  have hname : e.isName ≠ true := fun h => Token.not_endsLine_of_isName h he
  have hbrace : e.kind ≠ .openBrace := by rcases he with h | h <;> simp [h]
  have hopen : e.kind ≠ .openBracket := by rcases he with h | h <;> simp [h]
  have hclose : e.kind ≠ .closeBracket := by rcases he with h | h <;> simp [h]
  match line with
  | [] =>
    refine form_of_rule ?_ ?_
    · rintro _ _ _ ⟨⟩ h
      exact hname h.1
    · rintro _ _ _ _ _ h ⟨ha, -⟩
      cases h
      exact hopen ha
  | [a] =>
    refine form_of_rule ?_ ?_
    · rintro _ _ _ ⟨⟩ h
      exact hbrace h.2
    · rintro _ _ _ _ _ h ⟨-, hb, -⟩
      cases h
      exact hname hb
  | [a, b] =>
    unfold form
    dsimp only [List.cons_append, List.nil_append]
    cases rest with
    | nil => rfl
    | cons d rest => simp [hclose]
  | [a, b, c] =>
    unfold form
    dsimp only [List.cons_append, List.nil_append]
    simp [hbrace]
  | a :: b :: c :: d :: line => rfl

/-- A reader that begins some tokens further on. -/
theorem keeps_drop {f : List Token → Reading α} {n : Nat} (hn : n ≤ line.length)
    (h : Keeps f (line.drop n) e) : Keeps (fun ts => f (ts.drop n)) line e := by
  obtain ⟨result, hall⟩ := h
  refine ⟨result, fun rest => ?_⟩
  dsimp only
  rw [List.drop_append_of_le_length hn]
  exact hall rest

/-- A reader that makes something of what another one finds. -/
theorem keeps_map {β : Type} {f : List Token → Reading α} {g : List Token → Reading β} (h : α → β)
    (hf : Keeps f line e) (hg : ∀ rest, g (line ++ e :: rest) =
      ⟨(f (line ++ e :: rest)).result.map h, (f (line ++ e :: rest)).rest⟩) : Keeps g line e := by
  obtain ⟨result, hall⟩ := hf
  refine ⟨result.map h, fun rest => ?_⟩
  rw [hg]
  exact ⟨congrArg (Except.map h) (hall rest).1, (hall rest).2⟩

/-- A statement is read from its line. -/
theorem keeps_read (hline : ∀ t ∈ line, ¬ t.EndsLine) (he : e.EndsLine) :
    Keeps (read known) line e := by
  have hdrop (n : Nat) : ∀ t ∈ line.drop n, ¬ t.EndsLine := fun t ht =>
    hline t (List.mem_of_mem_drop ht)
  cases hform : form line with
  | category name =>
    have hlength : 2 ≤ line.length := by
      obtain ⟨a, b, rest, rfl, -⟩ := form_eq_category hform
      simp
    have hmembers : Keeps ((Category.new name).readMembers known none) (line.drop 2) e :=
      Category.keeps_readMembers (hdrop 2) he _ _
    refine keeps_map category (keeps_drop hlength hmembers) fun rest => ?_
    rw [read, form_append line he, hform]
  | featureSet name =>
    have hlength : 4 ≤ line.length := by
      obtain ⟨a, b, c, d, rest, rfl, -⟩ := form_eq_featureSet hform
      simp
    refine keeps_map featureSet (keeps_drop hlength
      (FeatureSet.keeps_readMembers (hdrop 4) he (.new name) .between nofun)) fun rest => ?_
    rw [read, form_append line he, hform]
  | rule =>
    have hrule : Keeps (Draft.read known {}) line e := Draft.keeps_read hline he {}
    refine keeps_map (fun placed => rule placed.1 placed.2) hrule fun rest => ?_
    rw [read, form_append line he, hform]

end Statement

end SoundChange
