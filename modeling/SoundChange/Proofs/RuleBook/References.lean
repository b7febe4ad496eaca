import SoundChange.Proofs.Rule.Derivation
import SoundChange.Proofs.RuleBook.Entries
import SoundChange.Proofs.Statement.Readable

/-!
# References are declared

Names are looked up while the automaton of a rule is assembled. Each set of the target and of the
environment that is built has been looked up then (`Layout.resolves_of_laid`). A feature in the
result is looked up for each text that it replaces, so it has been if the element that it is aligned
with can read one (`Element.Takes`, `Layout.declares_of_laid`).
-/

namespace SoundChange

open Element (Every EveryOf EveryAmong)

/-- The references in an element itself. -/
def Element.refs : Element → List SetRef
  | set ref => [ref]
  | compound refs => refs
  | _ => []

namespace Inventory

variable {i : Inventory} {ref : SetRef} {refs : List SetRef} {acc members : SortedSet Text}
  {e : Element}

/-- There is a set of the name of a reference: a category or a feature-set for a bare name, a
feature-set for a signed one. -/
def Declares (i : Inventory) : SetRef → Prop
  | .category name => (i.category? name).isSome = true ∨ (i.featureSet? name).isSome = true
  | .feature _ name => (i.featureSet? name).isSome = true

/-- All references in some elements, at any depth, are declared. -/
def Resolves (i : Inventory) (es : List Element) : Prop :=
  EveryOf (fun e => ∀ ref ∈ e.refs, i.Declares ref) es

theorem isSome_of_featureSet {name : Text} {f : FeatureSet} (h : i.featureSet name = .ok f) :
    (i.featureSet? name).isSome = true := by
  rw [featureSet] at h
  split at h
  · rename_i f' hf
    rw [hf]
    rfl
  · cases h

theorem declares_of_members (h : i.members ref = .ok members) : i.Declares ref := by
  cases ref with
  | category name =>
    rw [Inventory.members] at h
    split at h
    · rename_i hcategory
      exact .inl (by rw [hcategory]; rfl)
    · split at h
      · rename_i hfeature
        exact .inr (by rw [hfeature]; rfl)
      · cases h
  | feature present name =>
    obtain ⟨f, hf, -⟩ := map_eq_ok.mp h
    exact isSome_of_featureSet hf

theorem declares_of_meet (h : i.meet acc refs = .ok members) : ∀ ref ∈ refs, i.Declares ref := by
  induction refs generalizing acc with
  | nil => exact nofun
  | cons ref refs ih =>
    rw [meet] at h
    split at h
    · rename_i hmembers
      exact List.forall_mem_cons.mpr ⟨declares_of_members hmembers, ih h⟩
    · cases h

/-- A set that can be listed has its references declared. -/
theorem declares_of_membersOf (h : i.membersOf e = .ok members) :
    ∀ ref ∈ e.refs, i.Declares ref := by
  cases e with
  | set ref => exact List.forall_mem_singleton.mpr (declares_of_members h)
  | compound refs =>
    cases refs with
    | nil => exact nofun
    | cons ref refs =>
      rw [membersOf] at h
      split at h
      · rename_i hmembers
        exact List.forall_mem_cons.mpr ⟨declares_of_members hmembers, declares_of_meet h⟩
      · cases h
  | _ => exact nofun

end Inventory

/-! ## What a result is used for -/

namespace Element

mutual

/-- The element can read a text that a result in its place replaces: a literal text, a segment of a
set, or in a group what the first element of the group or of a branch reads. -/
def Takes (i : Inventory) : Element → Prop
  | utterance _ => True
  | set ref => ∃ members, i.membersOf (.set ref) = .ok members ∧ ∃ m ∈ members, m ≠ []
  | compound refs => ∃ members, i.membersOf (.compound refs) = .ok members ∧ ∃ m ∈ members, m ≠ []
  | optional body => TakesFirst i body
  | disjunction branches => TakesAny i branches
  | boundary _ => False
  | placeholder => False

/-- The first element of a sequence can. -/
def TakesFirst (i : Inventory) : List Element → Prop
  | [] => False
  | e :: _ => Takes i e

/-- The first element of a branch can. -/
def TakesAny (i : Inventory) : List (List Element) → Prop
  | [] => False
  | branch :: branches => TakesFirst i branch ∨ TakesAny i branches

end

end Element

namespace Emission

variable {i : Inventory} {m : Emission} {ms : List Emission} {results es : List Element}
  {overflow member text : Text} {present : Bool} {name : Text}

/-- The result is a signed feature. -/
def IsFeature (m : Emission) (present : Bool) (name : Text) : Prop :=
  m.result = some (.set (.feature present name))

theorem IsFeature.declares (hm : m.IsFeature present name) (h : m.replacement i member = .ok text) :
    i.Declares (.feature present name) := by
  rw [replacement, hm] at h
  obtain ⟨f, hf, -⟩ := map_eq_ok.mp h
  exact Inventory.isSome_of_featureSet hf

/-- The element at some place gets the result at that place. -/
theorem getElem?_align {k : Nat} {e : Element} (h : align overflow results es = some ms)
    (he : es[k]? = some e) : ∃ m, ms[k]? = some m ∧ m.result = results[k]? := by
  rw [align_eq_some h, shares, List.getElem?_mapIdx, he]
  exact ⟨_, rfl, rfl⟩

theorem literal_of_mem {e : Element} : ∀ {es : List Element} {text : Text},
    literal es = some text → e ∈ es → ∃ own, e = .utterance own
  | .utterance own :: es, _, h, he => by
    obtain ⟨rest, hrest, -⟩ := Option.map_eq_some_iff.mp h
    rcases List.mem_cons.mp he with rfl | he
    · exact ⟨own, rfl⟩
    · exact literal_of_mem hrest he

/-- No result but literal text is left over. -/
theorem lt_length_of_align {ref : SetRef} : ∀ {es results : List Element}
    {ms : List Emission} {k : Nat}, es ≠ [] → align overflow results es = some ms →
    results[k]? = some (.set ref) → k < es.length
  | [e], results, _, 0, _, _, _ => Nat.one_pos
  | [e], results, _, k + 1, _, h, hk => by
    obtain ⟨text, htext, -⟩ := Option.map_eq_some_iff.mp h
    rw [← List.getElem?_tail] at hk
    obtain ⟨own, hown⟩ := literal_of_mem htext (List.mem_of_getElem? hk)
    cases hown
  | _ :: _ :: _, _, _, 0, _, _, _ => Nat.succ_pos _
  | _ :: f :: es, results, _, k + 1, _, h, hk => by
    obtain ⟨ms, hrest, -⟩ := Option.map_eq_some_iff.mp h
    rw [← List.getElem?_tail] at hk
    exact Nat.succ_lt_succ (lt_length_of_align (List.cons_ne_nil f es) hrest hk)

/-- In a group the first element gets the result of the group. -/
theorem IsFeature.head {e : Element} (hm : m.IsFeature present name)
    (h : align m.overflow m.result.toList (e :: es) = some ms) :
    ∃ m', ms.head? = some m' ∧ m'.IsFeature present name := by
  obtain ⟨m', hhead, hresult⟩ := getElem?_align (k := 0) h rfl
  refine ⟨m', by rwa [List.head?_eq_getElem?], ?_⟩
  rw [IsFeature, hresult, hm]
  rfl

end Emission

namespace Layout

open Assembly (TargetUnit Setting)

variable {a : Automaton} {c : Setting} {T : Plan} {u : TargetUnit} {exit : StateId}
  {i : Inventory} {present : Bool} {name : Text}

mutual

/-- The references in what is laid out are declared. -/
theorem resolves_of_laid : ∀ (e : Element) {m : Option Emission} {follow : FirstSet}
    {s t : StateId} {n n' : Nat}, Laid c a T m follow e s t n n' →
    e.Every fun e => ∀ ref ∈ e.refs, c.inventory.Declares ref
  | .utterance _, _, _, _, _, _, _, _ => nofun
  | .set _, _, _, _, _, _, _, ⟨_, _, _, htrie, _⟩ => by
    obtain ⟨members, hmembers, -⟩ := Inventory.trie_eq_ok.mp htrie
    exact Inventory.declares_of_membersOf hmembers
  | .compound _, _, _, _, _, _, _, ⟨_, _, _, htrie, _⟩ => by
    obtain ⟨members, hmembers, -⟩ := Inventory.trie_eq_ok.mp htrie
    exact Inventory.declares_of_membersOf hmembers
  | .optional body, _, _, _, _, _, _, ⟨_, _, _, _, _, hbody, _⟩ =>
    ⟨nofun, resolves_of_laidAll body hbody⟩
  | .disjunction branches, _, _, _, _, _, _, ⟨_, _, hbranches, _⟩ =>
    ⟨nofun, resolves_of_laidBranches branches hbranches⟩
  | .boundary _, _, _, _, _, _, _, _ => nofun
  | .placeholder, _, _, _, _, _, _, _ => nofun

theorem resolves_of_laidAll : ∀ (es : List Element) {ms : List Emission} {follow : FirstSet}
    {s t : StateId} {n n' : Nat}, LaidAll c a T ms follow es s t n n' → c.inventory.Resolves es
  | [], _, _, _, _, _, _, _ => trivial
  | e :: es, _, _, _, _, _, _, ⟨_, _, _, _, he, hes⟩ =>
    ⟨resolves_of_laid e he, resolves_of_laidAll es hes⟩

theorem resolves_of_laidBranches : ∀ (branches : List (List Element)) {m : Option Emission}
    {follow : FirstSet} {join : StateId} {forks : List StateId} {n n' : Nat},
    LaidBranches c a T m follow join branches forks n n' →
    EveryAmong (fun e => ∀ ref ∈ e.refs, c.inventory.Declares ref) branches
  | [], _, _, _, _, _, _, _ => trivial
  | [] :: branches, _, _, _, _, _, _, ⟨_, _, hbranches⟩ =>
    ⟨trivial, resolves_of_laidBranches branches hbranches⟩
  | (e :: es) :: branches, _, _, _, _, _, _, ⟨_, _, _, _, _, _, _, hbranch, _, hbranches⟩ =>
    ⟨resolves_of_laidAll (e :: es) hbranch, resolves_of_laidBranches branches hbranches⟩

end

/-- A forest with a branch has the end of a unit in it. -/
theorem exists_replacement_of_branched : ∀ {forest : Forest} {path : Text} {arcs : List Arc},
    forest ≠ .empty → Branched a i (some u) exit path forest arcs →
    ∃ member text, u.emission.replacement i member = .ok text
  | .empty, _, _, hne, _ => absurd rfl hne
  | .branch d isMember below beside, path, _, _, ⟨_, _, _, _, hreaches, _⟩ => by
    rw [Reaches] at hreaches
    split at hreaches
    · obtain ⟨-, n, -, text, htext, -⟩ := hreaches
      exact ⟨_, text, htext⟩
    · rename_i hbelow
      obtain ⟨-, arcs, _, hinner, -⟩ := hreaches
      refine exists_replacement_of_branched (fun hempty => hbelow ?_) hinner
      rw [hempty]
      rfl

theorem declares_of_laidSet {e : Element} {m : Emission} {s t : StateId} {n n' : Nat}
    (hm : m.IsFeature present name)
    (htakes : ∃ members, i.membersOf e = .ok members ∧ ∃ m ∈ members, m ≠ [])
    (h : LaidSet a i e (some m) s t n n') : i.Declares (.feature present name) := by
  obtain ⟨trie, _, arcs, htrie, ⟨u, rfl, hunit, -⟩, hbranched, -⟩ := h
  obtain ⟨members, hmembers, member, hmember, hne⟩ := htakes
  obtain ⟨members', hmembers', rfl⟩ := Inventory.trie_eq_ok.mp htrie
  cases hmembers.symm.trans hmembers'
  have hforest : (Trie.ofSet members).forest ≠ .empty := by
    intro hempty
    have hhas := Trie.has_ofSet.mpr ⟨hmember, hne⟩
    rw [hempty] at hhas
    exact hhas
  obtain ⟨_, text, htext⟩ := exists_replacement_of_branched hforest hbranched
  rw [hunit.emission_eq] at htext
  exact hm.declares htext

theorem align_of_emissions {m : Emission} {es : List Element} {ms : List Emission}
    (h : c.emissions (some m) es = .ok ms) :
    Emission.align m.overflow m.result.toList es = some ms := by
  rw [Setting.emissions] at h
  split at h
  · rename_i halign
    cases h
    exact halign
  · cases h

mutual

/-- A feature that an element is replaced by is declared if the element can read something. -/
theorem declares_of_laid : ∀ (e : Element) {m : Emission} {follow : FirstSet} {s t : StateId}
    {n n' : Nat}, m.IsFeature present name → e.Takes c.inventory →
    Laid c a T (some m) follow e s t n n' → c.inventory.Declares (.feature present name)
  | .utterance _, _, _, _, _, _, _, hm, _, ⟨_, u, _, hunit, ⟨text, htext, _⟩, _⟩ => by
    rw [hunit.emission_eq] at htext
    exact hm.declares htext
  | .set _, _, _, _, _, _, _, hm, htakes, h => declares_of_laidSet hm htakes h
  | .compound _, _, _, _, _, _, _, hm, htakes, h => declares_of_laidSet hm htakes h
  | .optional body, _, _, _, _, _, _, hm, htakes, ⟨_, _, _, _, hms, hbody, _⟩ =>
    declares_of_laidFirst body hm htakes (align_of_emissions hms) hbody
  | .disjunction branches, _, _, _, _, _, _, hm, htakes, ⟨_, _, hbranches, _⟩ =>
    declares_of_laidBranches branches hm htakes hbranches

theorem declares_of_laidFirst : ∀ (es : List Element) {m : Emission} {ms : List Emission}
    {follow : FirstSet} {s t : StateId} {n n' : Nat}, m.IsFeature present name →
    Element.TakesFirst c.inventory es →
    Emission.align m.overflow m.result.toList es = some ms →
    LaidAll c a T ms follow es s t n n' → c.inventory.Declares (.feature present name)
  | e :: _, _, _, _, _, _, _, _, hm, htakes, halign, ⟨_, _, _, _, he, _⟩ => by
    obtain ⟨m', hhead, hm'⟩ := hm.head halign
    rw [hhead] at he
    exact declares_of_laid e hm' htakes he

theorem declares_of_laidBranches : ∀ (branches : List (List Element)) {m : Emission}
    {follow : FirstSet} {join : StateId} {forks : List StateId} {n n' : Nat},
    m.IsFeature present name → Element.TakesAny c.inventory branches →
    LaidBranches c a T (some m) follow join branches forks n n' →
    c.inventory.Declares (.feature present name)
  | [] :: branches, _, _, _, _, _, _, hm, htakes, ⟨_, _, hbranches⟩ =>
    declares_of_laidBranches branches hm (htakes.resolve_left id) hbranches
  | (e :: es) :: branches, _, _, _, _, _, _, hm, htakes,
      ⟨_, _, _, _, _, _, hms, hbranch, _, hbranches⟩ =>
    htakes.elim
      (fun hfirst => declares_of_laidFirst (e :: es) hm hfirst (align_of_emissions hms) hbranch)
      fun hrest => declares_of_laidBranches branches hm hrest hbranches

end

/-- Each element of a sequence is laid out with what replaces it. -/
theorem laid_of_getElem? {k : Nat} {e : Element} : ∀ {es : List Element} {ms : List Emission}
    {follow : FirstSet} {s t : StateId} {n n' : Nat}, LaidAll c a T ms follow es s t n n' →
    es[k]? = some e → ∃ after s' t' l l', Laid c a T ms[k]? after e s' t' l l' := by
  induction k with
  | zero =>
    rintro (_ | ⟨e', es⟩) ms _ _ _ _ _ h he
    · cases he
    · obtain ⟨after, mid, l, -, hlaid, -⟩ := h
      cases he
      rw [List.head?_eq_getElem?] at hlaid
      exact ⟨after, _, _, _, _, hlaid⟩
  | succ k ih =>
    rintro (_ | ⟨e', es⟩) ms _ _ _ _ _ h he
    · cases he
    · obtain ⟨after, mid, l, -, -, hrest⟩ := h
      rw [← List.getElem?_tail]
      exact ih hrest he

end Layout

/-! ## Rules -/

/-- The references of a rule are declared: those of the target, those of the environment that is
built, and each feature of the result that the element in its place in the target can take. -/
structure Rule.Resolved (i : Inventory) (strip : Bool) (rule : Rule) : Prop where
  target : i.Resolves rule.target
  environment : i.Resolves (rule.environmentFor strip)
  result {k : Nat} {present : Bool} {name : Text} :
    rule.result[k]? = some (.set (.feature present name)) →
    ∃ e, rule.target[k]? = some e ∧ (e.Takes i → i.Declares (.feature present name))

/-- A rule that can be made into an automaton has its references declared. -/
theorem Rule.Readable.resolved {i : Inventory} {rule : Rule} {strip : Bool} {a : Automaton}
    (hrule : rule.Readable) (h : rule.automaton i strip = .ok a) : rule.Resolved i strip := by
  obtain ⟨-, -, last, n, -, hlaid⟩ := Assembly.layout_of_automaton h
  obtain ⟨k, hplace⟩ := List.mem_iff_getElem?.mp (hrule.placeholder_mem_environmentFor strip)
  obtain ⟨after, s, t, l, l', htarget⟩ := Layout.laid_of_getElem? hlaid hplace
  obtain ⟨ms, halign, htarget⟩ : Layout.LaidTarget i rule a after s t l l' := htarget
  refine ⟨Layout.resolves_of_laidAll _ htarget, Layout.resolves_of_laidAll _ hlaid, ?_⟩
  intro k present name hresult
  have hlt := Emission.lt_length_of_align hrule.completes.target_ne_nil halign hresult
  have he := List.getElem?_eq_getElem hlt
  refine ⟨_, he, fun htakes => ?_⟩
  obtain ⟨m, hm, hfeature⟩ := Emission.getElem?_align halign he
  obtain ⟨_, _, _, _, _, hlaid⟩ := Layout.laid_of_getElem? htarget he
  rw [hm] at hlaid
  exact Layout.declares_of_laid _ (hfeature.trans hresult) htakes hlaid

namespace RuleBook

variable {options : CompileOptions} {source : Text} {n : Nat} {law : SoundLaw}

/-- Every law of a compiled book has its references declared by the statements before it. -/
theorem references_declared (h : (compile options source).1.laws[n]? = some law) :
    ∃ before entry after, Statement.readAll source = before ++ entry :: after ∧
      (enterAll options {} before).1.laws.length = n ∧
      entry.result = .ok (.rule law.rule law.position) ∧
      law.rule.Resolved (enterAll options {} before).1.inventory options.stripOptionals := by
  obtain ⟨before, entry, after, hsource, hn, hentry, htable⟩ := exists_entry_of_compile h
  have hrule : law.rule.Readable :=
    ⟨source, entry, law.position, by rw [hsource]; simp, hentry⟩
  exact ⟨before, entry, after, hsource, hn, hentry, hrule.resolved (Rule.table_eq_ok htable).1⟩

/-- A rule file with one feature-set and `[-nasal]/[+nasal]/_`. -/
def nasalSource : Text := "[nasal] { o => õ }\n[-nasal] => [+nasal] / _\n".toList

/-- `[-nasal]/[+nasal]/_`. -/
def nasalization : Rule where
  target := [.set (.feature false "nasal".toList)]
  result := [.set (.feature true "nasal".toList)]
  environment := [.placeholder]

theorem nasalization_references_declared :
    ∃ law, (compile {} nasalSource).1.laws[0]? = some law ∧
      ∃ before entry after, Statement.readAll nasalSource = before ++ entry :: after ∧
        (enterAll {} {} before).1.laws.length = 0 ∧
        entry.result = .ok (.rule law.rule law.position) ∧
        law.rule.Resolved (enterAll {} {} before).1.inventory true := by
  have hread : Statement.readAll nasalSource =
      [⟨1, .ok (.featureSet ((FeatureSet.new "nasal".toList).paired ['o'] ['õ']))⟩,
        ⟨2, .ok (.rule nasalization ⟨2, 1⟩)⟩] := by cbv
  obtain ⟨t, ht⟩ : ∃ t, nasalization.table (Inventory.declareFeatureSet {}
      ((FeatureSet.new "nasal".toList).paired ['o'] ['õ'])) {} = .ok t :=
    exists_ok (by decide +kernel)
  have hlaw : (compile {} nasalSource).1.laws[0]? = some ⟨nasalization, ⟨2, 1⟩, t⟩ := by
    rw [compile, hread]
    simp only [enterAll, enter, add, ht]
    rfl
  exact ⟨_, hlaw, references_declared hlaw⟩

/-- `a/e/_([+nasal])`, where the feature is stripped. -/
def raising : Rule where
  target := [.utterance ['a']]
  result := [.utterance ['e']]
  environment := [.placeholder, .optional [.set (.feature true "nasal".toList)]]

/-- `a()/e[+nasal]/_`, where the feature is aligned with a group that is empty. -/
def groupNasalization : Rule where
  target := [.utterance ['a'], .optional []]
  result := [.utterance ['e'], .set (.feature true "nasal".toList)]
  environment := [.placeholder]

/-- `$E/[+nasal]/_`, where the feature replaces no text if `E` has no members. -/
def emptyNasalization : Rule where
  target := [.set (.category ['E'])]
  result := [.set (.feature true "nasal".toList)]
  environment := [.placeholder]

/-- A file with one rule that gives a table. -/
theorem compile_rule {source : Text} {rule : Rule} {t : Table}
    (hread : Statement.readAll source = [⟨1, .ok (.rule rule .start)⟩])
    (ht : rule.table {} {} = .ok t) :
    compile {} source = ({ laws := [⟨rule, .start, t⟩] }, []) := by
  rw [compile, hread]
  simp only [enterAll, enter, add, ht]
  rfl

/-- Rules are accepted with a feature that no statement declares: where it is stripped, where it is
the result of an empty group, and where it is that of an empty set. -/
theorem unused_references_accepted :
    (∃ t, compile {} "a => e / _ ([+nasal])\n".toList =
        ({ laws := [⟨raising, .start, t⟩] }, []) ∧
      ¬ ({} : Inventory).Resolves raising.environment) ∧
    (∃ t, compile {} "a() => e[+nasal] / _\n".toList =
        ({ laws := [⟨groupNasalization, .start, t⟩] }, []) ∧
      ¬ ({} : Inventory).Resolves groupNasalization.result) ∧
    ∃ t, compile {} "E { }\n$E => [+nasal] / _\n".toList =
        ({ inventory := { categories := [(['E'], .empty)] },
           laws := [⟨emptyNasalization, ⟨2, 1⟩, t⟩] }, []) ∧
      ¬ ({ categories := [(['E'], .empty)] } : Inventory).Resolves emptyNasalization.result := by
  refine ⟨?_, ?_, ?_⟩
  · have hread : Statement.readAll "a => e / _ ([+nasal])\n".toList =
        [⟨1, .ok (.rule raising .start)⟩] := by cbv
    obtain ⟨t, ht⟩ : ∃ t, raising.table {} {} = .ok t := exists_ok (by decide +kernel)
    refine ⟨t, compile_rule hread ht, fun h => ?_⟩
    have hnasal : ({} : Inventory).Declares (.feature true "nasal".toList) :=
      h.2.1.2.1 _ (List.mem_singleton_self _)
    cases hnasal
  · have hread : Statement.readAll "a() => e[+nasal] / _\n".toList =
        [⟨1, .ok (.rule groupNasalization .start)⟩] := by cbv
    obtain ⟨t, ht⟩ : ∃ t, groupNasalization.table {} {} = .ok t := exists_ok (by decide +kernel)
    refine ⟨t, compile_rule hread ht, fun h => ?_⟩
    have hnasal : ({} : Inventory).Declares (.feature true "nasal".toList) :=
      h.2.1 _ (List.mem_singleton_self _)
    cases hnasal
  · have hread : Statement.readAll "E { }\n$E => [+nasal] / _\n".toList =
        [⟨1, .ok (.category (.new ['E']))⟩, ⟨2, .ok (.rule emptyNasalization ⟨2, 1⟩)⟩] := by cbv
    obtain ⟨t, ht⟩ : ∃ t, emptyNasalization.table { categories := [(['E'], .empty)] } {} = .ok t :=
      exists_ok (by decide +kernel)
    have hdeclare : ({} : Inventory).declareCategory (.new ['E']) =
        .ok { categories := [(['E'], .empty)] } := rfl
    refine ⟨t, ?_, fun h => ?_⟩
    · rw [compile, hread]
      simp only [enterAll, enter, add, hdeclare, ht]
      rfl
    · have hnasal : ({ categories := [(['E'], .empty)] } : Inventory).Declares
          (.feature true "nasal".toList) := h.1 _ (List.mem_singleton_self _)
      cases hnasal

end RuleBook

end SoundChange
