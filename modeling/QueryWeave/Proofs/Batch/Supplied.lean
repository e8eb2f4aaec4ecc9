import QueryWeave.Proofs.Batch.Origins
import QueryWeave.Proofs.Batch.Variables

/-!
# Every Variable Stands for Something

A commit fails for a variable exactly if some operation in it uses one that has neither a value nor
a default. The variables an entry is checked for go by their own names, and those in the document by
the entry's names; but both come from the same lexemes. So in a commit that succeeds every variable
that an entry brings along is sent with a value, or declared with a default.

- `Session.Lacks`: entries whose operations use a variable that they have nothing for.
- `Commit.Binds`: variables of an entry that stand for something in a commit.
- `Session.supplyLaws_run`: how commits end, for every run and every key.
-/

namespace QueryWeave

/-! ## §1 Variables of a commit -/

/-- Whether a lexeme is a variable of an entry that stands for something in a commit: it is sent
with a value, or the entry declares it with a default. -/
def Commit.Binds (held : Commit) (entry : Entry) (l : Lexeme) : Prop :=
  ∃ name, l.text = '$' :: (entryVariable entry.aliasName name).toList ∧
    (held.values.binds (entryVariable entry.aliasName name) = true ∨
      ∃ d ∈ entry.declarations, d.name = entryVariable entry.aliasName name ∧
        d.defaultText.isSome = true)

/-- The values are gathered as if one entry had them all. -/
theorem Commit.values_eq_putAll (held : Commit) :
    held.values = Bindings.putAll [] (held.entries.flatMap Entry.values) := by
  rw [values, Bindings.putAll, List.foldl_flatMap]
  rfl

/-- The values of all entries are sent. -/
theorem Commit.mem_names_values {held : Commit} {name : String} :
    name ∈ Bindings.names held.values ↔
      ∃ entry ∈ held.entries, name ∈ Bindings.names entry.values := by
  rw [values_eq_putAll, Bindings.names_putAll, Names.mem_addAll]
  simp [Bindings.names, List.map_flatMap]

/-- A name is bound if it is among the bound names. -/
theorem Bindings.binds_iff {α : Type} {name : String} {bindings : Bindings α} :
    binds name bindings = true ↔ name ∈ names bindings := by
  rw [binds, Option.isSome_iff_ne_none, ne_eq, find?_eq_none_iff, not_not]

/-- Where an entry lacks nothing, all it references stands for something. -/
theorem Commit.binds_of_complete {held : Commit} (hcomplete : held.missing? = none) {entry : Entry}
    (hentry : entry ∈ held.entries) {lib : Library} {template : Template} {values : JsonObject}
    (w : Woven lib template values entry) {text : String}
    (hown : OwnVariables entry.aliasName entry.referenced text) :
    ∀ l ∈ (scanText text).lexemes, l.kind = .variable → held.Binds entry l := by
  intro l hl hkind
  obtain ⟨name, hname, htext⟩ := hown l hl (Lexeme.isVariable_iff.2 hkind)
  refine ⟨name, htext, ?_⟩
  have hmissing : entry.missingVariable? = none := by
    have hnone := List.findSome?_eq_none_iff.1 hcomplete entry hentry
    simpa using hnone
  have hhas := List.find?_eq_none.1 hmissing name hname
  simp only [Bool.and_eq_true, Bool.not_eq_true', decide_eq_true_eq, not_and, not_not] at hhas
  -- A value was given for the name, or else the declaration has a default
  cases hbinds : entry.supplied.binds name with
  | true =>
    left
    rw [Bindings.binds_iff] at hbinds ⊢
    refine Commit.mem_names_values.2 ⟨entry, hentry, ?_⟩
    have hnames : Bindings.names entry.values =
        (Bindings.names entry.supplied).map (entryVariable entry.aliasName) := by
      simp [Entry.values, Bindings.names, Function.comp_def]
    rw [hnames]
    exact List.mem_map_of_mem hbinds
  | false =>
    right
    obtain ⟨d, hd, rfl, hsome⟩ := w.mem_defaulted_iff.1 (hhas hbinds)
    rw [w.declarations_eq]
    exact ⟨_, List.mem_map_of_mem hd, rfl, hsome⟩

namespace Session

/-! ## §2 Entries that lack a variable -/

/-- Whether an entry lacks a variable: the operation it was merged from uses it, and has nothing for
it. -/
def Lacks (s : Session) (steps : List SessionStep) (entry : Entry) (name : String) : Prop :=
  ∃ lib template values compiled, s.MergedFrom steps lib template values entry ∧
    lib.compile template values true = .ok compiled ∧
    lib.Uses compiled name ∧ ¬ compiled.Supplied values name

variable {s : Session} {steps : List SessionStep} {entry : Entry}

/-- The first variable that an entry lacks, with what is used in front of it. -/
theorem MergedFrom.first_missing {lib : Library} {template : Template} {values : JsonObject}
    (h : s.MergedFrom steps lib template values entry) {name : String}
    (hmissing : entry.missingVariable? = some name) :
    ∃ compiled, lib.compile template values true = .ok compiled ∧
      lib.DependenciesFirst compiled.fragmentNames ∧ lib.Uses compiled name ∧
      ∃ front behind, lib.usedVariables compiled = front ++ name :: behind ∧
        (∀ other ∈ front, compiled.Supplied values other) ∧ ¬ compiled.Supplied values name := by
  obtain ⟨-, ⟨w⟩⟩ := h.woven
  obtain ⟨c⟩ := Library.compilation_of_compile w.compiles
  rw [w.missingVariable?_eq] at hmissing
  have huses := c.mem_usedVariables_iff.1 (List.mem_of_find?_eq_some hmissing)
  -- The check runs over the used variables in order, so all before the reported one are supplied
  obtain ⟨hlacks, front, behind, hsplit, hfront⟩ := List.find?_eq_some_iff_append.1 hmissing
  refine ⟨w.compiled, w.compiles, c.order, huses, front, behind, hsplit, fun other hother => ?_, ?_⟩
  · simpa using hfront other hother
  · simpa using hlacks

theorem lacks_of_missing (h : entry ∈ s.mergedIn steps) {name : String}
    (hmissing : entry.missingVariable? = some name) : s.Lacks steps entry name := by
  obtain ⟨lib, template, values, hfrom⟩ := exists_mergedFrom h
  obtain ⟨compiled, hcompile, -, huses, -, -, -, -, hnot⟩ := hfrom.first_missing hmissing
  exact ⟨lib, template, values, compiled, hfrom, hcompile, huses, hnot⟩

/-- An entry lacks nothing if and only if it is not found to lack anything. -/
theorem missing_eq_none_iff (h : entry ∈ s.mergedIn steps) :
    entry.missingVariable? = none ↔ ∀ name, ¬ s.Lacks steps entry name := by
  constructor
  · -- The entry was woven from this very compilation, since compiling is a function
    rintro hnone name ⟨lib, template, values, compiled, hfrom, hcompile, huses, hnot⟩
    obtain ⟨-, ⟨w⟩⟩ := hfrom.woven
    have hcompiled := w.compiles
    rw [hcompile] at hcompiled
    obtain rfl := Except.ok.inj hcompiled
    obtain ⟨c⟩ := Library.compilation_of_compile hcompile
    rw [w.missingVariable?_eq, List.find?_eq_none] at hnone
    have hsupplied := hnone name (c.mem_usedVariables_iff.2 huses)
    exact hnot (by simpa using hsupplied)
  · intro hall
    cases hmissing : entry.missingVariable? with
    | none => rfl
    | some name => exact absurd (lacks_of_missing h hmissing) (hall name)

/-- The first entry for which a batch is rejected, and the first variable that it lacks. -/
theorem exists_first_missing {held : Commit}
    (hmerged : ∀ entry ∈ held.entries, entry ∈ s.mergedIn steps)
    {aliasName name : String} (h : held.missing? = some (.missingVariable aliasName name)) :
    ∃ before entry after, held.entries = before ++ entry :: after ∧
      (∀ earlier ∈ before, ∀ other, ¬ s.Lacks steps earlier other) ∧ entry.aliasName = aliasName ∧
      entry.missingVariable? = some name := by
  -- The first entry with a missing variable splits the batch, and none before it misses any
  obtain ⟨before, entry, after, hsplit, hentry, hbefore⟩ := List.findSome?_eq_some_iff.1 h
  obtain ⟨missing, hmissing, heq⟩ := Option.map_eq_some_iff.1 hentry
  simp only [ClientError.missingVariable.injEq] at heq
  obtain ⟨rfl, rfl⟩ := heq
  refine ⟨before, entry, after, hsplit, fun earlier hearlier => ?_, rfl, hmissing⟩
  have hmem : earlier ∈ held.entries := hsplit ▸ List.mem_append_left _ hearlier
  apply (missing_eq_none_iff (hmerged earlier hmem)).1
  exact Option.map_eq_none_iff.1 (hbefore earlier hearlier)

/-- Nothing is found to be lacking in a batch if and only if no entry of it lacks anything. -/
theorem complete_iff {held : Commit} (hmerged : ∀ entry ∈ held.entries, entry ∈ s.mergedIn steps) :
    held.missing? = none ↔ ∀ entry ∈ held.entries, ∀ name, ¬ s.Lacks steps entry name := by
  rw [Commit.missing?, List.findSome?_eq_none_iff]
  apply forall_congr'
  intro entry
  apply forall_congr'
  intro hentry
  rw [Option.map_eq_none_iff]
  exact missing_eq_none_iff (hmerged entry hentry)

/-! ## §3 How a commit ends

A commit looks at its entries in merge order, and in each of them at the variables in the order in
which they are referenced. So the error names the first of the first. -/

/-- A commit succeeds if there is something to commit, and nothing is found to be lacking. -/
theorem commit_ok_iff {key : String} :
    (∃ number held, (s.commit key).2 = .ok (number, held)) ↔
      s.entriesUnder key ≠ [] ∧ (s.batch key).missing? = none := by
  have hcommitted := s.committed key
  generalize s.commit key = outcome at hcommitted
  cases hcommitted with
  | empty hnone => simp [hnone]
  | failed _ hmissing => simp [hmissing]
  | held hsome hcomplete => exact ⟨fun _ => ⟨hsome, hcomplete⟩, fun _ => ⟨_, _, rfl⟩⟩

/-- A commit fails for the variable that is found to be lacking. -/
theorem commit_missing_iff {key aliasName name : String} :
    (s.commit key).2 = .error (.missingVariable aliasName name) ↔
      (s.batch key).missing? = some (.missingVariable aliasName name) := by
  have hcommitted := s.committed key
  generalize s.commit key = outcome at hcommitted
  cases hcommitted with
  | empty hnone => simp [batch, Commit.missing?, hnone]
  | failed _ hmissing => simp [hmissing]
  | held _ hcomplete => simp [hcomplete]

/-- In a commit that succeeds, the variables of an entry stand for something. -/
theorem binds_of_commit {codes : AliasCodes} {key : String} {number : Nat} {held : Commit}
    (hcommit : (((start codes).run steps).commit key).2 = .ok (number, held))
    (hentry : entry ∈ held.entries) {text : String}
    (htext : text = entry.selection ∨ ∃ pair ∈ entry.fragments, text = pair.2) :
    ∀ l ∈ (scanText text).lexemes, l.kind = .variable → held.Binds entry l := by
  obtain ⟨-, hcomplete⟩ := commit_inversion hcommit
  obtain ⟨lib, template, values, hfrom⟩ :=
    exists_mergedFrom (mem_mergedIn_of_commit hcommit entry hentry)
  obtain ⟨halias, ⟨w⟩⟩ := hfrom.woven
  apply Commit.binds_of_complete hcomplete hentry w
  rcases htext with rfl | ⟨pair, hpair, rfl⟩
  · exact w.ownVariables_selection halias
  · exact w.ownVariables_fragments halias pair hpair

/-- What variables have to do with how a commit ends, `s` being the session behind a run.

The laws are about operations and not about entries: an entry lacks a variable if the operation it
was merged from uses one, in its own selections or in a fragment it needs, that has neither a value
nor a default. Entries are traced back to their operations through the run (`origins`). -/
structure SupplyLaws (codes : AliasCodes) (steps : List SessionStep) (s : Session) (key : String) :
    Prop where
  /-- The entries are those merged under the key since its last commit, in the order of merges. -/
  entries : s.entriesUnder key = mergedSince key [] (start codes) steps
  /-- Each of them was merged from an operation that compiles. -/
  origins : ∀ entry ∈ s.entriesUnder key, ∃ lib template values compiled,
    (start codes).MergedFrom steps lib template values entry ∧
      lib.compile template values true = .ok compiled
  /-- A commit succeeds if and only if no entry lacks a variable. -/
  succeeds : s.entriesUnder key ≠ [] →
    ((∃ number held, (s.commit key).2 = .ok (number, held)) ↔
      ∀ entry ∈ s.entriesUnder key, ∀ name, ¬ (start codes).Lacks steps entry name)
  /-- It fails for a variable if and only if some entry lacks one. -/
  fails : (∃ aliasName name, (s.commit key).2 = .error (.missingVariable aliasName name)) ↔
    ∃ entry ∈ s.entriesUnder key, ∃ name, (start codes).Lacks steps entry name
  /-- The error names the first entry that lacks one, and the first that it lacks. -/
  names : ∀ aliasName name, (s.commit key).2 = .error (.missingVariable aliasName name) →
    ∃ before entry after, s.entriesUnder key = before ++ entry :: after ∧
      (∀ earlier ∈ before, ∀ other, ¬ (start codes).Lacks steps earlier other) ∧
      entry.aliasName = aliasName ∧
      ∃ lib template values compiled, (start codes).MergedFrom steps lib template values entry ∧
        lib.compile template values true = .ok compiled ∧
        lib.DependenciesFirst compiled.fragmentNames ∧ lib.Uses compiled name ∧
        ∃ front behind, lib.usedVariables compiled = front ++ name :: behind ∧
          (∀ other ∈ front, compiled.Supplied values other) ∧ ¬ compiled.Supplied values name
  /-- Where it succeeds, all variables in the selections of an entry stand for something. -/
  selections : ∀ number held, (s.commit key).2 = .ok (number, held) → ∀ entry ∈ held.entries,
    ∀ l ∈ (scanText entry.selection).lexemes, l.kind = .variable → held.Binds entry l
  /-- And so do those in its fragment definitions. -/
  definitions : ∀ number held, (s.commit key).2 = .ok (number, held) → ∀ entry ∈ held.entries,
    ∀ pair ∈ entry.fragments, ∀ l ∈ (scanText pair.2).lexemes, l.kind = .variable →
      held.Binds entry l

/-- **Every variable stands for something**, or the commit fails for the first one that does not.
The run may hold any steps; nothing is assumed of what came before the commit. -/
theorem supplyLaws_run (codes : AliasCodes) (steps : List SessionStep) (key : String) :
    SupplyLaws codes steps ((start codes).run steps) key := by
  have hmerged : ∀ entry ∈ ((start codes).run steps).entriesUnder key,
      entry ∈ (start codes).mergedIn steps := fun entry hentry =>
    ((sound_run codes steps).mem_entriesUnder hentry).1
  -- What a commit looks for is what entries lack, each by its own origin
  have hcomplete : (((start codes).run steps).batch key).missing? = none ↔
      ∀ entry ∈ ((start codes).run steps).entriesUnder key, ∀ name,
        ¬ (start codes).Lacks steps entry name :=
    complete_iff hmerged
  constructor
  case entries => exact entriesUnder_run (start codes) steps key
  case origins =>
    intro entry hentry
    obtain ⟨lib, template, values, hfrom⟩ := exists_mergedFrom (hmerged entry hentry)
    -- Every entry was woven from a compiled operation
    obtain ⟨-, ⟨w⟩⟩ := hfrom.woven
    exact ⟨lib, template, values, w.compiled, hfrom, w.compiles⟩
  case succeeds =>
    intro hsome
    rw [commit_ok_iff, hcomplete]
    exact and_iff_right hsome
  case fails =>
    simp only [commit_missing_iff]
    constructor
    · rintro ⟨aliasName, name, hmissing⟩
      by_contra hnone
      have hall : (((start codes).run steps).batch key).missing? = none := by
        apply hcomplete.2
        intro entry hentry other hlacks
        exact hnone ⟨entry, hentry, other, hlacks⟩
      rw [hmissing] at hall
      cases hall
    · rintro ⟨entry, hentry, name, hlacks⟩
      cases hmissing : (((start codes).run steps).batch key).missing? with
      | none => exact absurd hlacks (hcomplete.1 hmissing entry hentry name)
      | some e =>
        obtain ⟨aliasName, other, rfl⟩ := Commit.eq_missingVariable hmissing
        exact ⟨aliasName, other, rfl⟩
  case names =>
    intro aliasName name herror
    obtain ⟨before, entry, after, hsplit, hbefore, halias, hmissing⟩ :=
      exists_first_missing hmerged (commit_missing_iff.1 herror)
    have hentry : entry ∈ ((start codes).run steps).entriesUnder key := by
      show entry ∈ (((start codes).run steps).batch key).entries
      rw [hsplit]
      exact List.mem_append_right _ List.mem_cons_self
    obtain ⟨lib, template, values, hfrom⟩ := exists_mergedFrom (hmerged entry hentry)
    obtain ⟨compiled, hcompile, hfirst⟩ := hfrom.first_missing hmissing
    exact ⟨before, entry, after, hsplit, hbefore, halias, lib, template, values, compiled, hfrom,
      hcompile, hfirst⟩
  case selections =>
    intro number held hcommit entry hentry
    exact binds_of_commit hcommit hentry (.inl rfl)
  case definitions =>
    intro number held hcommit entry hentry pair hpair
    exact binds_of_commit hcommit hentry (.inr ⟨pair, hpair, rfl⟩)

end Session

end QueryWeave
