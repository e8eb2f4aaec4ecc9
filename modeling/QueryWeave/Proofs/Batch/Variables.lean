import QueryWeave.Proofs.Batch.Entries
import QueryWeave.Proofs.Batch.Glued
import QueryWeave.Proofs.Operation.Compile

/-!
# The Variables of an Entry

What an operation uses variables for is spread over its selection set and the fragments it needs.
An entry keeps the names by themselves, and lacks the first of them that has neither a value nor a
default. Its texts have the same variables under the entry's names, whatever the template was.

- `Library.Uses`, `Compiled.Supplied`: what an operation needs values for, and what it has them for.
- `Woven.missingVariable?_eq`: which variable an entry lacks.
- `Woven.ownVariables_selection`, `Woven.ownVariables_fragments`: the variables of its texts.
-/

namespace QueryWeave

/-! ## §1 What an operation uses -/

/-- The names of the variables of a row, as often as they stand there. -/
def variableNames (row : List Lexeme) : List String :=
  (variablesOf row).map Lexeme.variableName

/-- The variables that an operation uses: those of its selection set, and then those of the bodies
of the fragments it needs, in the order of these. -/
def Library.usedVariables (lib : Library) (compiled : Compiled) : List String :=
  (Outline.ofText? compiled.operation).toList.flatMap (fun o => variableNames o.selection.row) ++
    (compiled.fragmentNames.filterMap lib.find?).flatMap fun f => variableNames f.row

/-- Whether an operation uses a variable: it stands in the selection set, or in the body of a
fragment that is reached. -/
def Library.Uses (lib : Library) (compiled : Compiled) (name : String) : Prop :=
  ∃ l : Lexeme, l.kind = .variable ∧ l.variableName = name ∧
    ((∃ o, Outline.ofText? compiled.operation = some o ∧ l ∈ o.selection.row) ∨
      ∃ flat f, lib.Reaches (pathsSpread compiled.operation) flat ∧ lib.find? flat = some f ∧
        l ∈ f.row)

/-- Whether a variable has something to stand for: a value, or a default. -/
def Compiled.Supplied (compiled : Compiled) (values : JsonObject) (name : String) : Prop :=
  (stripModifiers values).binds name = true ∨
    ∃ d ∈ compiled.declarations, d.name = name ∧ d.defaultText.isSome = true

instance (compiled : Compiled) (values : JsonObject) (name : String) :
    Decidable (compiled.Supplied values name) :=
  inferInstanceAs (Decidable (_ ∨ _))

theorem mem_variableNames_iff {row : List Lexeme} {name : String} :
    name ∈ variableNames row ↔ ∃ l ∈ row, l.kind = .variable ∧ l.variableName = name := by
  simp only [variableNames, variablesOf, List.mem_map, List.mem_filter, Lexeme.isVariable_iff,
    and_assoc]

/-- The fragments that are listed for an operation are those that it reaches. -/
theorem Library.Compilation.mem_fragmentNames_iff {lib : Library} {template : Template}
    {values : JsonObject} {compiled : Compiled} (c : lib.Compilation template values compiled)
    {flat : String} :
    flat ∈ compiled.fragmentNames ↔ lib.Reaches (pathsSpread compiled.operation) flat :=
  ⟨c.reached flat, c.order.mem_of_reaches c.covers⟩

/-- Nothing but what an operation uses is listed. -/
theorem Library.Compilation.mem_usedVariables_iff {lib : Library} {template : Template}
    {values : JsonObject} {compiled : Compiled} (c : lib.Compilation template values compiled)
    {name : String} : name ∈ lib.usedVariables compiled ↔ lib.Uses compiled name := by
  simp only [usedVariables, List.mem_append, List.mem_flatMap, List.mem_filterMap,
    Option.mem_toList, mem_variableNames_iff]
  constructor
  · rintro (⟨o, ho, l, hl, hkind, hname⟩ | ⟨f, ⟨flat, hflat, hfind⟩, l, hl, hkind, hname⟩)
    · exact ⟨l, hkind, hname, .inl ⟨o, ho, hl⟩⟩
    · exact ⟨l, hkind, hname, .inr ⟨flat, f, c.mem_fragmentNames_iff.1 hflat, hfind, hl⟩⟩
  · rintro ⟨l, hkind, hname, ⟨o, ho, hl⟩ | ⟨flat, f, hreached, hfind, hl⟩⟩
    · exact .inl ⟨o, ho, l, hl, hkind, hname⟩
    · exact .inr ⟨f, ⟨flat, c.mem_fragmentNames_iff.2 hreached, hfind⟩, l, hl, hkind, hname⟩

/-! ## §2 What an entry lacks -/

/-- Looking names up one by one succeeds with the fragments that are found. -/
theorem Library.eq_filterMap_of_lookups {lib : Library} {names : List String}
    {fragments : List Fragment} (h : names.mapM lib.lookup = .ok fragments) :
    fragments = names.filterMap lib.find? := by
  replace h := forall₂_of_mapM h
  induction h with
  | nil => rfl
  | @cons name f rest later hlookup _ ih =>
    cases hfind : lib.find? name with
    | none => simp [lookup, hfind] at hlookup
    | some found =>
      simp only [lookup, hfind, Except.ok.injEq] at hlookup
      rw [List.filterMap_cons, hfind, hlookup, ← ih]

/-- The fragments that isolation adds one after the other. -/
theorem Library.isolate_inversion {lib : Library} {aliasName : String} {names : List String}
    {known : EntryFragments} (h : lib.isolate aliasName names = .ok known) :
    known = (names.filterMap lib.find?).foldl (EntryFragments.add aliasName) .empty := by
  unfold isolate at h
  cases hmap : names.mapM lib.lookup with
  | error e => simp [hmap, bind, Except.bind] at h
  | ok fragments =>
    simp only [hmap, bind, Except.bind, pure, Except.pure, Except.ok.injEq] at h
    rw [← h, eq_filterMap_of_lookups hmap]

/-- Nothing is copied but fragments that were added. -/
theorem mem_copied_foldl {aliasName : String} {fragments : List Fragment} {known : EntryFragments}
    {name : String}
    (h : name ∈ (fragments.foldl (EntryFragments.add aliasName) known).copied) :
    name ∈ known.copied ∨ ∃ f ∈ fragments, f.flatName = name := by
  induction fragments generalizing known with
  | nil => exact .inl h
  | cons f rest ih =>
    rcases ih h with hadded | ⟨g, hg, hname⟩
    · -- The step either leaves the copies alone, or adds the fragment itself
      rcases known.add_cases aliasName f with ⟨-, hadd⟩ | ⟨-, hadd⟩
      · rw [hadd, Names.mem_add] at hadded
        exact hadded.imp id fun heq => ⟨f, List.mem_cons_self, heq.symm⟩
      · rw [hadd] at hadded
        exact .inl hadded
    · exact .inr ⟨g, List.mem_cons_of_mem _ hg, hname⟩

@[simp] theorem referenced_add (aliasName : String) (known : EntryFragments) (f : Fragment) :
    (known.add aliasName f).referenced = Names.addAll known.referenced (variableNames f.row) := by
  rcases known.add_cases aliasName f with ⟨-, hadd⟩ | ⟨-, hadd⟩ <;>
    · rw [hadd]
      rfl

/-- The first variable with a property that fragments reference. -/
theorem find?_referenced (p : String → Bool) (aliasName : String) (fragments : List Fragment)
    (known : EntryFragments) :
    (fragments.foldl (EntryFragments.add aliasName) known).referenced.find? p =
      (known.referenced.find? p).or
        ((fragments.flatMap fun f => variableNames f.row).find? p) := by
  induction fragments generalizing known with
  | nil => simp
  | cons f rest ih =>
    rw [List.foldl_cons, ih, referenced_add, Names.find?_addAll, Option.or_assoc,
      ← List.find?_append, List.flatMap_cons]

section Entries

variable {lib : Library} {template : Template} {values : JsonObject} {entry : Entry}

/-- No entry has a copied fragment that is called by the word that begins a type condition, whatever
its alias and its library look like. -/
theorem Woven.on_not_mem_copied (w : Woven lib template values entry) :
    "on" ∉ w.fragments.copied := by
  intro hcopied
  obtain ⟨c⟩ := Library.compilation_of_compile w.compiles
  rw [Library.isolate_inversion w.isolates] at hcopied
  rcases mem_copied_foldl hcopied with hempty | ⟨f, hf, hflat⟩
  · simp [EntryFragments.empty] at hempty
  · -- Copied fragments are listed under their flat names, and `on` is not listed
    obtain ⟨name, hname, hfind⟩ := List.mem_filterMap.1 hf
    obtain ⟨g, hg, hgflat, -⟩ := c.order.fragment name hname
    rw [hfind] at hg
    cases hg
    exact c.order.on_not_mem (hflat ▸ hgflat ▸ hname)

/-- What an entry references is what its operation uses. -/
theorem Woven.find?_referenced (w : Woven lib template values entry) (p : String → Bool) :
    entry.referenced.find? p = (lib.usedVariables w.compiled).find? p := by
  have hisolated := Library.isolate_inversion w.isolates
  have hoperation : w.outline.referencedVariables.find? p =
      (variableNames w.outline.selection.row).find? p := by
    show (Names.addAll [] (variableNames w.outline.selection.row)).find? p = _
    rw [Names.find?_addAll, List.find?_nil, Option.none_or]
  rw [w.referenced_eq, Names.find?_addAll, hoperation, hisolated, QueryWeave.find?_referenced,
    Library.usedVariables, w.outlines, List.find?_append]
  simp [EntryFragments.empty]

theorem Woven.mem_referenced_iff (w : Woven lib template values entry) {name : String} :
    name ∈ entry.referenced ↔ name ∈ lib.usedVariables w.compiled := by
  -- A name is there if it is found
  have hfound : ∀ names : List String,
      name ∈ names ↔ (names.find? fun other => decide (other = name)).isSome = true := by
    intro names
    simp [List.find?_isSome]
  rw [hfound, hfound, w.find?_referenced]

theorem Woven.mem_defaulted_iff (w : Woven lib template values entry) {name : String} :
    name ∈ entry.defaulted ↔
      ∃ d ∈ w.compiled.declarations, d.name = name ∧ d.defaultText.isSome = true := by
  rw [w.defaulted_eq]
  simp only [List.mem_map, List.mem_filter]
  constructor
  · rintro ⟨d, ⟨hd, hsome⟩, hname⟩
    exact ⟨d, hd, hname, hsome⟩
  · rintro ⟨d, hd, hname, hsome⟩
    exact ⟨d, ⟨hd, hsome⟩, hname⟩

/-- **An entry lacks the first variable that its operation uses without having anything for it.** -/
theorem Woven.missingVariable?_eq (w : Woven lib template values entry) :
    entry.missingVariable? = (lib.usedVariables w.compiled).find? fun name =>
      ¬ w.compiled.Supplied values name := by
  have hlacks : (fun name => !entry.supplied.binds name && decide (name ∉ entry.defaulted)) =
      fun name => decide (¬ w.compiled.Supplied values name) := by
    funext name
    rw [w.supplied_eq]
    simp only [Compiled.Supplied, ← w.mem_defaulted_iff]
    cases (stripModifiers values).binds name <;> simp
  rw [Entry.missingVariable?, hlacks, w.find?_referenced]

/-! ## §3 Variables under the entry's names

The variables in the texts of an entry are those of its operation under the entry's names. For
bodies this holds of copies, and of shared definitions because these have no variables at all. -/

/-- Whether all variables of a text are those listed, under the entry's names. -/
def OwnVariables (aliasName : String) (names : List String) (text : String) : Prop :=
  ∀ l ∈ (scanText text).lexemes, l.isVariable = true →
    ∃ name ∈ names, l.text = '$' :: (entryVariable aliasName name).toList

theorem OwnVariables.mono {aliasName text : String} {names more : List String}
    (h : OwnVariables aliasName names text) (hmore : ∀ name ∈ names, name ∈ more) :
    OwnVariables aliasName more text := by
  intro l hl hvariable
  obtain ⟨name, hname, htext⟩ := h l hl hvariable
  exact ⟨name, hmore name hname, htext⟩

/-- The variables of the selections of an entry: each is one of the variables the operation
references, under the entry's name. This holds whether or not aliases have run into numbers, and so
needs no condition. -/
theorem Woven.ownVariables_selection (w : Woven lib template values entry)
    (halias : ∃ code, entry.aliasName = aliasOfCode code) :
    OwnVariables entry.aliasName entry.referenced entry.selection := by
  obtain ⟨code, hcode⟩ := halias
  obtain ⟨row, aliased, trailer, h⟩ := w.walked
  obtain ⟨blanks, left, hblanks, htrimmed⟩ := h.inner
  obtain ⟨following, hmore, hrow⟩ := h.spells
  -- The selections are read as a row with the variables of the aliased one
  obtain ⟨read, hchars, hread, hvariables⟩ := exists_read_aliasRow
    (hcode ▸ isName_aliasOfCode code) (hcode ▸ all_isNumberPart_aliasOfCode code) h.aliases hrow
  have hscan : (scanText entry.selection).lexemes = read := by
    rw [scanText, h.chars, ← hchars, scan_charsOf
      (hread.before hmore (Lexeme.separates_of_gapState h.trailer.isSome)) h.trailer.isSome]
  intro l hl hvariable
  have hmem : l ∈ aliased.row := by
    rw [hscan] at hl
    have hfiltered : l ∈ variablesOf read := List.mem_filter.2 ⟨hl, hvariable⟩
    rw [hvariables] at hfiltered
    exact (List.mem_filter.1 hfiltered).1
  obtain ⟨old, hold, holdVariable, rfl⟩ :=
    variable_of_mem_aliasRow (fun _ => rfl) h.aliases l hmem hvariable
  refine ⟨old.variableName, ?_, rfl⟩
  -- The blanks in front of the selections cost the first gap only
  have htokens : w.outline.selection.inner.map Lexeme.token = row.map Lexeme.token := by
    have hlexemes := congrArg Scan.lexemes htrimmed
    dsimp only at hlexemes
    rw [hlexemes, tokens_indent]
  have htoken : old.token ∈ w.outline.selection.inner.map Lexeme.token :=
    htokens ▸ List.mem_map_of_mem hold
  obtain ⟨inner, hinner, heq⟩ := List.mem_map.1 htoken
  obtain ⟨hkind, htext⟩ := Prod.mk.inj heq
  rw [w.mem_referenced_iff, Library.usedVariables, w.outlines]
  apply List.mem_append_left
  simp only [Option.toList_some, List.flatMap_cons, List.flatMap_nil, List.append_nil]
  apply mem_variableNames_iff.2
  refine ⟨inner, ?_, hkind.trans (Lexeme.isVariable_iff.1 holdVariable), ?_⟩
  · rw [Enclosed.row, List.cons_append]
    exact List.mem_cons_of_mem _ (List.mem_append_left _ hinner)
  · rw [Lexeme.variableName, htext, Lexeme.variableName]

/-- The variables of a definition are those of the body. -/
theorem ownVariables_define {aliasName name body : String} {names : List String}
    (hname : IsName name.toList) (h : OwnVariables aliasName names body) :
    OwnVariables aliasName names (Fragment.define name body) := by
  intro l hl hvariable
  rw [scanText_define hname] at hl
  rcases List.mem_cons.1 hl with rfl | hl
  · exact absurd hvariable (by decide)
  rcases List.mem_cons.1 hl with rfl | hl
  · exact absurd hvariable (by simp [Lexeme.isVariable])
  -- The gap in front of the body does not matter
  have htoken : l.token ∈ (scanText body).lexemes.map Lexeme.token := by
    rw [← tokens_indent [' ']]
    exact List.mem_map_of_mem hl
  obtain ⟨m, hm, heq⟩ := List.mem_map.1 htoken
  obtain ⟨hkind, htext⟩ := Prod.mk.inj heq
  have hvariable' : m.isVariable = true := by
    rw [Lexeme.isVariable_iff] at hvariable ⊢
    exact hkind.trans hvariable
  rw [← htext]
  exact h m hm hvariable'

/-- A variable of a copied row was a variable of the row. A lexeme keeps its kind, and a variable is
renamed first of all. -/
theorem variable_of_mem_copyRow {aliasName : String} {copied : List String} {row : List Lexeme}
    {before : Option Lexeme} {m : Lexeme} (hm : m ∈ copyRow aliasName copied before row)
    (hvariable : m.isVariable = true) :
    ∃ l ∈ row, l.isVariable = true ∧ m = l.toEntryVariable aliasName := by
  induction row generalizing before with
  | nil => simp [copyRow] at hm
  | cons l rest ih =>
    rw [copyRow] at hm
    rcases List.mem_cons.1 hm with rfl | hm
    · split at hvariable
      · rename_i hl
        exact ⟨l, List.mem_cons_self, hl, by rw [if_pos hl]⟩
      · rename_i hl
        split at hvariable <;> exact absurd hvariable hl
    · obtain ⟨old, hold, hfrom⟩ := ih hm
      exact ⟨old, List.mem_cons_of_mem _ hold, hfrom⟩

/-- The variables of a copy are those of the body, under the entry's names. Nothing is asked of the
body: it is a row of lexemes in any case, and a copy renames them in their places. -/
theorem ownVariables_copyBody {aliasName : String} (halias : IsName aliasName.toList)
    (copied : List String) (body : String) :
    OwnVariables aliasName (variableNames (scanText body).lexemes)
      (copyBody aliasName copied body) := by
  intro l hl hvariable
  rw [scan_copyBody halias] at hl
  obtain ⟨old, hold, hvariable', rfl⟩ := variable_of_mem_copyRow hl hvariable
  exact ⟨old.variableName,
    mem_variableNames_iff.2 ⟨old, hold, Lexeme.isVariable_iff.1 hvariable', rfl⟩, rfl⟩

/-- The variables of the definitions that isolation gives. -/
theorem ownVariables_isolated {aliasName : String} (halias : IsName aliasName.toList)
    {fragments : List Fragment} (hnames : ∀ f ∈ fragments, IsName f.flatName.toList)
    {known : EntryFragments}
    (h : ∀ pair ∈ known.definitions, OwnVariables aliasName known.referenced pair.2) :
    ∀ pair ∈ (fragments.foldl (EntryFragments.add aliasName) known).definitions,
      OwnVariables aliasName
        (fragments.foldl (EntryFragments.add aliasName) known).referenced pair.2 := by
  induction fragments generalizing known with
  | nil => exact h
  | cons f rest ih =>
    rw [List.foldl_cons]
    apply ih fun g hg => hnames g (List.mem_cons_of_mem _ hg)
    have hname := hnames f List.mem_cons_self
    -- What is defined is a copy, or has no variables to rename
    have hdefined : ∃ name definition, OwnVariables aliasName (variableNames f.row) definition ∧
        (known.add aliasName f).definitions = known.definitions.put name definition := by
      rcases known.add_cases aliasName f with ⟨-, hadd⟩ | ⟨⟨hnone, -⟩, hadd⟩
      · rw [hadd]
        exact ⟨_, _, ownVariables_define (isName_entryName halias hname.all)
          (ownVariables_copyBody halias _ f.body), rfl⟩
      · rw [hadd]
        refine ⟨_, _, ownVariables_define hname fun l hl hvariable => ?_, rfl⟩
        rw [hnone l hl] at hvariable
        cases hvariable
    obtain ⟨name, definition, hown, hput⟩ := hdefined
    intro pair hpair
    rw [hput] at hpair
    rw [referenced_add]
    rcases Bindings.mem_put hpair with ⟨-, hnew⟩ | hold
    · rw [hnew]
      exact hown.mono fun _ hmem => Names.mem_addAll.2 (.inr hmem)
    · exact (h pair hold).mono fun _ hmem => Names.mem_addAll.2 (.inl hmem)

theorem Woven.ownVariables_fragments (w : Woven lib template values entry)
    (halias : ∃ code, entry.aliasName = aliasOfCode code) :
    ∀ pair ∈ entry.fragments, OwnVariables entry.aliasName entry.referenced pair.2 := by
  obtain ⟨code, hcode⟩ := halias
  obtain ⟨c⟩ := Library.compilation_of_compile w.compiles
  have hisolated := Library.isolate_inversion w.isolates
  -- Copies are named after fragments that are spread, so their names read as one token
  have hnames : ∀ f ∈ w.compiled.fragmentNames.filterMap lib.find?, IsName f.flatName.toList := by
    intro f hf
    obtain ⟨name, hname, hfind⟩ := List.mem_filterMap.1 hf
    obtain ⟨g, hg, hflat, hspread, -⟩ := c.order.fragment name hname
    rw [hfind] at hg
    cases hg
    exact hflat ▸ hspread.1
  -- The invariant starts with no definitions, and each copied fragment keeps it
  have hempty : ∀ pair ∈ EntryFragments.empty.definitions,
      OwnVariables entry.aliasName EntryFragments.empty.referenced pair.2 :=
    fun pair hpair => absurd hpair List.not_mem_nil
  have hown := ownVariables_isolated (hcode ▸ isName_aliasOfCode code) hnames hempty
  rw [← hisolated] at hown
  intro pair hpair
  rw [w.fragments_eq] at hpair
  refine (hown pair hpair).mono fun name hname => ?_
  rw [w.referenced_eq]
  exact Names.mem_addAll.2 (.inr hname)

end Entries

end QueryWeave
