import SoundChange.Proofs.Inventory
import SoundChange.RuleBook.Basic

/-!
# Carrying out entries

What one entry of a rule file does to a rule book (`RuleBook.enter_cases`), and from it where the
laws of a book come from: each was made of an entry, with the sets declared by the entries before
that (`RuleBook.exists_entry_of_law`). The sets of a book have the history of its entries'
declarations (`RuleBook.inventory_enterAll`).
-/

namespace SoundChange.RuleBook

open Statement (Entry)

variable {options : CompileOptions} {b later : RuleBook} {entry : Entry} {entries : List Entry}
  {law : SoundLaw} {n : Nat} {e : RuleError}

/-- An entry that can be carried out declares a category or a feature-set, or adds a law. -/
theorem enter_cases (h : b.enter options entry = .ok later) :
    (∃ c inventory, entry.result = .ok (.category c) ∧
      b.inventory.declareCategory c = .ok inventory ∧ later = { b with inventory }) ∨
    (∃ f, entry.result = .ok (.featureSet f) ∧
      later = { b with inventory := b.inventory.declareFeatureSet f }) ∨
    ∃ law : SoundLaw, entry.result = .ok (.rule law.rule law.position) ∧
      law.rule.table b.inventory options = .ok law.table ∧
      later = { b with laws := b.laws ++ [law] } := by
  unfold enter at h
  cases hresult : entry.result with
  | error e =>
    rw [hresult] at h
    cases h
  | ok s =>
    rw [hresult] at h
    cases s with
    | category c =>
      simp only [add] at h
      split at h
      · rename_i inventory hdeclare
        cases h
        exact .inl ⟨c, inventory, rfl, hdeclare, rfl⟩
      · cases h
    | featureSet f =>
      cases h
      exact .inr (.inl ⟨f, rfl, rfl⟩)
    | rule rule position =>
      simp only [add] at h
      split at h
      · rename_i table htable
        cases h
        exact .inr (.inr ⟨⟨rule, position, table⟩, rfl, htable, rfl⟩)
      · cases h

theorem enterAll_of_ok (h : b.enter options entry = .ok later) :
    enterAll options b (entry :: entries) = enterAll options later entries := by
  rw [enterAll, h]

/-- An entry that fails is reported, and nothing else. -/
theorem enterAll_of_error (h : b.enter options entry = .error e) :
    enterAll options b (entry :: entries) = ((enterAll options b entries).1,
      .ofError entry.line e :: (enterAll options b entries).2) := by
  rw [enterAll, h]

/-- Entries are carried out in the book that those before them leave. -/
theorem enterAll_append (before after : List Entry) :
    enterAll options b (before ++ after) =
      ((enterAll options (enterAll options b before).1 after).1,
        (enterAll options b before).2 ++
          (enterAll options (enterAll options b before).1 after).2) := by
  induction before generalizing b with
  | nil => rfl
  | cons entry before ih =>
    rw [List.cons_append]
    cases h : b.enter options entry with
    | ok later => rw [enterAll_of_ok h, enterAll_of_ok h, ih]
    | error e => rw [enterAll_of_error h, enterAll_of_error h, ih, List.cons_append]

/-- The call that declares what an entry declares. -/
def declaration? (entry : Entry) : Option Inventory.Call :=
  match entry.result with
  | .ok (.category c) => some (.category c)
  | .ok (.featureSet f) => some (.featureSet f)
  | _ => none

theorem inventory_enter (h : b.enter options entry = .ok later) :
    later.inventory = b.inventory.afterAll (declaration? entry).toList := by
  rcases enter_cases h with ⟨c, inventory, hentry, hdeclare, rfl⟩ | ⟨f, hentry, rfl⟩ |
    ⟨law, hentry, -, rfl⟩
  · simp [declaration?, hentry, Inventory.afterAll, Inventory.call, hdeclare]
  · simp [declaration?, hentry, Inventory.afterAll, Inventory.call]
  · simp [declaration?, hentry, Inventory.afterAll]

/-- An entry that cannot be carried out declares nothing, or its declaration fails. -/
theorem afterAll_of_enter_error (h : b.enter options entry = .error e) :
    b.inventory.afterAll (declaration? entry).toList = b.inventory := by
  unfold enter at h
  unfold declaration?
  split at h
  · rename_i s hentry
    rw [hentry]
    cases s with
    | category c =>
      rw [add] at h
      cases hdeclare : b.inventory.declareCategory c with
      | ok inventory => simp [hdeclare] at h
      | error e => simp [Inventory.afterAll, Inventory.call, hdeclare]
    | featureSet f => cases h
    | rule rule position => rfl
  · rename_i hentry
    rw [hentry]
    rfl

/-- The sets of a book are those that the entries declare, one after the other. -/
theorem inventory_enterAll : (enterAll options b entries).1.inventory =
    b.inventory.afterAll (entries.filterMap declaration?) := by
  induction entries generalizing b with
  | nil => rfl
  | cons entry entries ih =>
    have hcons : (entry :: entries).filterMap declaration? =
        (declaration? entry).toList ++ entries.filterMap declaration? := by
      rw [List.filterMap_cons]
      cases declaration? entry <;> rfl
    rw [hcons, Inventory.afterAll_append]
    cases henter : b.enter options entry with
    | ok later => rw [enterAll_of_ok henter, ih, inventory_enter henter]
    | error e => rw [enterAll_of_error henter, ih, afterAll_of_enter_error henter]

theorem compile_nil : compile options [] = ({}, []) := by
  rw [compile, Statement.readAll, Token.tokenize, Token.tokenizeFrom, Statement.readFrom]
  rfl

/-- A file whose entries go on after those of another one. -/
theorem compile_of_readAll {source before : Text}
    (h : Statement.readAll source = Statement.readAll before ++ entries) :
    compile options source = ((enterAll options (compile options before).1 entries).1,
      (compile options before).2 ++ (enterAll options (compile options before).1 entries).2) := by
  rw [compile, h, enterAll_append]
  rfl

/-- The law at some place of a book was there before, or it was made of an entry; then the entries
before that have made the laws before it and declared the sets that it was made with. -/
theorem exists_entry_of_law (h : (enterAll options b entries).1.laws[n]? = some law) :
    b.laws[n]? = some law ∨ ∃ before entry after, entries = before ++ entry :: after ∧
      (enterAll options b before).1.laws.length = n ∧
      entry.result = .ok (.rule law.rule law.position) ∧
      law.rule.table (enterAll options b before).1.inventory options = .ok law.table := by
  induction entries generalizing b with
  | nil => exact .inl h
  | cons entry entries ih =>
    cases henter : b.enter options entry with
    | error e =>
      rw [enterAll_of_error henter] at h
      refine (ih h).imp_right ?_
      rintro ⟨before, mid, after, rfl, hmid⟩
      refine ⟨entry :: before, mid, after, rfl, ?_⟩
      rwa [enterAll_of_error henter]
    | ok later =>
      rw [enterAll_of_ok henter] at h
      rcases ih h with hlater | ⟨before, mid, after, rfl, hmid⟩
      · rcases enter_cases henter with ⟨_, _, _, _, rfl⟩ | ⟨_, _, rfl⟩ | ⟨made, hmade, htable, rfl⟩
        · exact .inl hlater
        · exact .inl hlater
        · -- the law is the one that has been added, or it stands before it
          rw [List.getElem?_append] at hlater
          split at hlater
          · exact .inl hlater
          · rename_i hle
            obtain ⟨hlt, hmem⟩ := List.getElem?_eq_some_iff.mp hlater
            rw [List.length_singleton, Nat.lt_one_iff] at hlt
            have hn : b.laws.length = n := by omega
            have hlaw : made = law := by simpa [hlt] using hmem
            subst hlaw
            exact .inr ⟨[], entry, entries, rfl, hn, hmade, htable⟩
      · refine .inr ⟨entry :: before, mid, after, rfl, ?_⟩
        rwa [enterAll_of_ok henter]

/-- A diagnostic is that of an entry that cannot be carried out; the entries before that have the
diagnostics before it. -/
theorem exists_entry_of_diagnostic {d : Diagnostic}
    (h : (enterAll options b entries).2[n]? = some d) : ∃ before entry after e,
      entries = before ++ entry :: after ∧ (enterAll options b before).2.length = n ∧
      (enterAll options b before).1.enter options entry = .error e ∧ d = .ofError entry.line e := by
  induction entries generalizing b n with
  | nil => cases h
  | cons entry entries ih =>
    cases henter : b.enter options entry with
    | ok later =>
      rw [enterAll_of_ok henter] at h
      obtain ⟨before, failed, after, e, rfl, hfailed⟩ := ih h
      refine ⟨entry :: before, failed, after, e, rfl, ?_⟩
      rwa [enterAll_of_ok henter]
    | error e =>
      rw [enterAll_of_error henter] at h
      cases n with
      | zero => exact ⟨[], entry, entries, e, rfl, rfl, henter, (Option.some.inj h).symm⟩
      | succ n =>
        obtain ⟨before, failed, after, e, rfl, hn, hfailed⟩ := ih h
        refine ⟨entry :: before, failed, after, e, rfl, ?_⟩
        rw [enterAll_of_error henter, List.length_cons, hn]
        exact ⟨rfl, hfailed⟩

/-- The law at some place of a compiled book was made of an entry of the rule file, when the entries
before that had been carried out. -/
theorem exists_entry_of_compile {source : Text}
    (h : (compile options source).1.laws[n]? = some law) :
    ∃ before entry after, Statement.readAll source = before ++ entry :: after ∧
      (enterAll options {} before).1.laws.length = n ∧
      entry.result = .ok (.rule law.rule law.position) ∧
      law.rule.table (enterAll options {} before).1.inventory options = .ok law.table :=
  (exists_entry_of_law h).resolve_left nofun

end SoundChange.RuleBook
