import QueryWeave.Proofs.Batch.Copies
import QueryWeave.Proofs.Fragment.Closure

/-!
# The Fragments of an Entry

What isolation leaves an entry with. Fragments come dependencies first, so that at each of them it
is settled which of those below it were copied. A fragment is copied if it references a variable
or spreads a copy; it is then defined under the entry's name, and else under its own with the
definition of the library. As long as no flat name looks like a name of the entry, no definition
replaces another.

- `Isolated`: the definitions of an entry, by the fragments they are made of.
- `isolated_of_isolate`: isolation gives them.
-/

namespace QueryWeave

/-- Whether no flat name of a library begins with an alias and an underscore. Then a copy cannot
take the name of a fragment that is shared. -/
def Library.Free (lib : Library) (aliasName : String) : Prop :=
  ∀ f ∈ lib.fragments, ∀ name, f.flatName ≠ entryName aliasName name

/-- The fragments of an entry that needs those listed. Every name listed has one definition: that of
a copy under the entry's name if it was copied, and else that of the library. What is shared
references no variable and spreads no copy, so it may be shared by all entries of a document. -/
structure Isolated (lib : Library) (aliasName : String) (listed : List String)
    (known : EntryFragments) : Prop where
  copied_listed : ∀ name ∈ known.copied, name ∈ listed
  copy : ∀ name ∈ known.copied, ∀ f, lib.find? name = some f →
    known.definitions.find? (entryName aliasName name) =
      some (Fragment.define (entryName aliasName name) (copyBody aliasName known.copied f.body))
  shared : ∀ name ∈ listed, name ∉ known.copied → ∀ f, lib.find? name = some f →
    known.definitions.find? name = some f.definition ∧
      (∀ l ∈ f.row, l.isVariable = false) ∧ ∀ path ∈ f.spreadPaths, path ∉ known.copied
  names : ∀ name ∈ Bindings.names known.definitions,
    name ∈ listed ∧ name ∉ known.copied ∨ ∃ own ∈ known.copied, name = entryName aliasName own
  referenced : ∀ name ∈ listed, ∀ f, lib.find? name = some f →
    ∀ l ∈ f.row, l.isVariable = true → l.variableName ∈ known.referenced

variable {lib : Library} {aliasName : String}

theorem isolated_empty : Isolated lib aliasName [] .empty where
  copied_listed := by simp [EntryFragments.empty]
  copy := by simp [EntryFragments.empty]
  shared := by simp
  names := by simp [EntryFragments.empty]
  referenced := by simp

/-- The word that begins a type condition is the name of no copied fragment. -/
theorem Isolated.on_not_mem {listed : List String} {known : EntryFragments}
    (h : Isolated lib aliasName listed known) (horder : lib.DependenciesFirst listed) :
    "on" ∉ known.copied :=
  fun hmem => horder.on_not_mem (h.copied_listed "on" hmem)

/-- What a stored body spreads is listed under the very path. -/
theorem mem_of_covers (hlib : lib.Registered) {listed : List String} {f : Fragment}
    (hf : f ∈ lib.fragments) (hcovers : lib.Covers listed f.spreadPaths) :
    ∀ path ∈ f.spreadPaths, path ∈ listed :=
  hcovers.mem (hlib.wellStored f hf).flat (spells_scan f.body.toList).1

/-- Helper: the copy of a body that spreads listed fragments does not change when a fragment that
is not listed is copied as well. -/
private theorem copyBody_add (hlib : lib.Registered) {listed copied : List String}
    (horder : lib.DependenciesFirst listed) (hcopied : ∀ name ∈ copied, name ∈ listed)
    {g : Fragment} (hg : g ∈ lib.fragments) (hcovers : lib.Covers listed g.spreadPaths)
    {name : String} (hnew : name ∉ listed) (hname : Library.IsSpreadName name) :
    copyBody aliasName (Names.add copied name) g.body = copyBody aliasName copied g.body := by
  have honCopied : "on" ∉ copied := fun hmem => horder.on_not_mem (hcopied "on" hmem)
  have honAdd : "on" ∉ Names.add copied name := fun hmem =>
    (Names.mem_add.1 hmem).elim honCopied fun heq => hname.2 heq.symm
  -- The new name is not listed, and everything that the body spreads is
  have hrow : copyRow aliasName (Names.add copied name) none g.row =
      copyRow aliasName copied none g.row := by
    apply copyRow_congr (hlib.wellStored g hg).flat honAdd honCopied
    intro path hpath
    have hlisted := mem_of_covers hlib hg hcovers path hpath
    rw [Names.mem_add]
    exact or_iff_left fun heq => hnew (heq ▸ hlisted)
  show String.ofList (Lexeme.charsOf (copyRow _ _ none g.row) ++ _) = String.ofList _
  rw [hrow]
  rfl

/-- Helper: what is listed is covered by what is listed. -/
private theorem covers_of_listed {listed : List String} (horder : lib.DependenciesFirst listed)
    {name : String} (hname : name ∈ listed) {g : Fragment} (hfind : lib.find? name = some g) :
    g ∈ lib.fragments ∧ g.flatName = name ∧ lib.Covers listed g.spreadPaths := by
  obtain ⟨g', hfind', hflat, -, hcovers⟩ := horder.fragment name hname
  rw [hfind] at hfind'
  cases hfind'
  exact ⟨lib.mem_of_find? hfind, hflat, hcovers⟩

/-- The variables that a body references. -/
theorem mem_variableNames {row : List Lexeme} {l : Lexeme} (hl : l ∈ row)
    (hvariable : l.isVariable = true) :
    l.variableName ∈ (row.filter Lexeme.isVariable).map Lexeme.variableName :=
  List.mem_map_of_mem (List.mem_filter.2 ⟨hl, hvariable⟩)

/-- Helper: what a fragment references is referenced from then on. -/
private theorem Isolated.referenced_add {listed : List String} {known : EntryFragments}
    (h : Isolated lib aliasName listed known) {f : Fragment}
    (hfind : lib.find? f.flatName = some f) :
    ∀ name ∈ listed ++ [f.flatName], ∀ g, lib.find? name = some g →
      ∀ l ∈ g.row, l.isVariable = true →
        l.variableName ∈ Names.addAll known.referenced
          ((f.row.filter Lexeme.isVariable).map Lexeme.variableName) := by
  intro name hname g hg l hl hvariable
  rw [Names.mem_addAll]
  -- A fragment listed before, or the new one
  rcases List.mem_append.1 hname with hname | hname
  · exact .inl (h.referenced name hname g hg l hl hvariable)
  · rw [List.mem_singleton] at hname
    rw [hname, hfind] at hg
    cases hg
    exact .inr (mem_variableNames hl hvariable)

/-- Helper: adding a fragment that is copied. -/
private theorem Isolated.add_copy (hlib : lib.Registered) (hfree : lib.Free aliasName)
    {listed : List String} {known : EntryFragments} (h : Isolated lib aliasName listed known)
    (horder : lib.DependenciesFirst listed) {f : Fragment} (hfind : lib.find? f.flatName = some f)
    (hnew : f.flatName ∉ listed) (hfname : Library.IsSpreadName f.flatName)
    (hcovers : lib.Covers listed f.spreadPaths) :
    Isolated lib aliasName (listed ++ [f.flatName])
      { definitions := known.definitions.put (entryName aliasName f.flatName)
          (Fragment.define (entryName aliasName f.flatName)
            (copyBody aliasName known.copied f.body))
        copied := Names.add known.copied f.flatName
        referenced := Names.addAll known.referenced
          ((f.row.filter Lexeme.isVariable).map Lexeme.variableName) } where
  copied_listed := by
    intro name hname
    rcases Names.mem_add.1 hname with hname | rfl
    · exact List.mem_append_left _ (h.copied_listed name hname)
    · exact List.mem_append_right _ List.mem_cons_self
  copy := by
    intro name hname g hg
    dsimp only at hname ⊢
    rcases Names.mem_add.1 hname with hname | rfl
    · -- An older copy is kept, and would come out the same today
      have hlisted := h.copied_listed name hname
      obtain ⟨hgmem, -, hgcovers⟩ := covers_of_listed horder hlisted hg
      have hne : entryName aliasName name ≠ entryName aliasName f.flatName := fun heq =>
        hnew (entryName_cancel heq ▸ hlisted)
      rw [Bindings.find?_put_of_ne hne, h.copy name hname g hg,
        copyBody_add hlib horder h.copied_listed hgmem hgcovers hnew hfname]
    · rw [hfind] at hg
      cases hg
      rw [Bindings.find?_put_self,
        copyBody_add hlib horder h.copied_listed (lib.mem_of_find? hfind) hcovers hnew hfname]
  shared := by
    intro name hname hnot g hg
    dsimp only at hnot ⊢
    -- A fragment that is shared was listed before: the new one is copied
    have hlisted : name ∈ listed := by
      rcases List.mem_append.1 hname with hname | hname
      · exact hname
      · rw [List.mem_singleton] at hname
        exact absurd (Names.mem_add.2 (.inr hname)) hnot
    have hshared : name ∉ known.copied := fun hmem => hnot (Names.mem_add.2 (.inl hmem))
    obtain ⟨hgmem, hflat, hgcovers⟩ := covers_of_listed horder hlisted hg
    obtain ⟨hdefinition, hvariables, hpaths⟩ := h.shared name hlisted hshared g hg
    have hne : name ≠ entryName aliasName f.flatName := hflat ▸ hfree g hgmem f.flatName
    refine ⟨by rw [Bindings.find?_put_of_ne hne, hdefinition], hvariables, fun path hpath => ?_⟩
    rw [Names.mem_add, not_or]
    exact ⟨hpaths path hpath, fun heq =>
      hnew (heq ▸ mem_of_covers hlib hgmem hgcovers path hpath)⟩
  names := by
    intro name hname
    dsimp only at hname ⊢
    rcases Bindings.mem_names_put.1 hname with hold | rfl
    · rcases h.names name hold with ⟨hlisted, hshared⟩ | ⟨own, hown, rfl⟩
      · refine .inl ⟨List.mem_append_left _ hlisted, fun hcopied => ?_⟩
        rcases Names.mem_add.1 hcopied with hcopied | rfl
        · exact hshared hcopied
        · exact hnew hlisted
      · exact .inr ⟨own, Names.mem_add.2 (.inl hown), rfl⟩
    · exact .inr ⟨f.flatName, Names.mem_add.2 (.inr rfl), rfl⟩
  referenced := h.referenced_add hfind

/-- Helper: adding a fragment that is shared. -/
private theorem Isolated.add_shared (hfree : lib.Free aliasName) {listed : List String}
    {known : EntryFragments} (h : Isolated lib aliasName listed known) {f : Fragment}
    (hfind : lib.find? f.flatName = some f) (hnew : f.flatName ∉ listed)
    (hvariables : ∀ l ∈ f.row, l.isVariable = false)
    (hpaths : ∀ path ∈ f.spreadPaths, path ∉ known.copied) :
    Isolated lib aliasName (listed ++ [f.flatName])
      { definitions := known.definitions.put f.flatName f.definition
        copied := known.copied
        referenced := Names.addAll known.referenced
          ((f.row.filter Lexeme.isVariable).map Lexeme.variableName) } where
  copied_listed := fun name hname => List.mem_append_left _ (h.copied_listed name hname)
  copy := by
    intro name hname g hg
    dsimp only at hname ⊢
    -- The definitions of copies go by names that no fragment has
    have hne : entryName aliasName name ≠ f.flatName :=
      (hfree f (lib.mem_of_find? hfind) name).symm
    rw [Bindings.find?_put_of_ne hne, h.copy name hname g hg]
  shared := by
    intro name hname hnot g hg
    dsimp only at hnot ⊢
    rcases List.mem_append.1 hname with hname | hname
    · have hne : name ≠ f.flatName := fun heq => hnew (heq ▸ hname)
      rw [Bindings.find?_put_of_ne hne]
      exact h.shared name hname hnot g hg
    · rw [List.mem_singleton] at hname
      subst hname
      rw [hfind] at hg
      cases hg
      exact ⟨Bindings.find?_put_self _ _ _, hvariables, hpaths⟩
  names := by
    intro name hname
    dsimp only at hname ⊢
    rcases Bindings.mem_names_put.1 hname with hold | rfl
    · exact (h.names name hold).imp (fun hname => ⟨List.mem_append_left _ hname.1, hname.2⟩) id
    · exact .inl ⟨List.mem_append_right _ List.mem_cons_self,
        fun hcopied => hnew (h.copied_listed _ hcopied)⟩
  referenced := h.referenced_add hfind

/-- Adding a fragment behind those that it spreads. -/
theorem Isolated.add (hlib : lib.Registered) (hfree : lib.Free aliasName) {listed : List String}
    {known : EntryFragments} (h : Isolated lib aliasName listed known)
    (horder : lib.DependenciesFirst listed) {f : Fragment} (hfind : lib.find? f.flatName = some f)
    (hnew : f.flatName ∉ listed) (hfname : Library.IsSpreadName f.flatName)
    (hcovers : lib.Covers listed f.spreadPaths) :
    Isolated lib aliasName (listed ++ [f.flatName]) (known.add aliasName f) := by
  rcases known.add_cases aliasName f with ⟨-, hadd⟩ | ⟨⟨hvariables, hpaths⟩, hadd⟩
  · rw [hadd]
    exact h.add_copy hlib hfree horder hfind hnew hfname hcovers
  · rw [hadd]
    exact h.add_shared hfree hfind hnew hvariables hpaths

/-- Fragments that come dependencies first are found, and along the list each of them is added
behind those that it spreads. -/
theorem exists_lookups_isolated (hlib : lib.Registered) (hfree : lib.Free aliasName)
    {listed : List String} (horder : lib.DependenciesFirst listed) :
    ∃ fragments, listed.mapM lib.lookup = .ok fragments ∧
      Isolated lib aliasName listed (fragments.foldl (EntryFragments.add aliasName) .empty) := by
  induction horder with
  | nil => exact ⟨[], rfl, isolated_empty⟩
  | @snoc listed f horder hfind hnew hfname hcovers ih =>
    obtain ⟨fragments, hlookups, hisolated⟩ := ih
    refine ⟨fragments ++ [f], ?_, ?_⟩
    · rw [List.mapM_append, hlookups]
      simp [Library.lookup, hfind, bind, Except.bind, pure, Except.pure]
    · rw [List.foldl_append]
      exact hisolated.add hlib hfree horder hfind hnew hfname hcovers

/-- Isolation of fragments that come dependencies first succeeds, and gives every fragment its
definition. At each fragment it is settled already which of those that it spreads were copied. -/
theorem isolated_of_isolate (hlib : lib.Registered) (hfree : lib.Free aliasName)
    {listed : List String} (horder : lib.DependenciesFirst listed) :
    ∃ known, lib.isolate aliasName listed = .ok known ∧ Isolated lib aliasName listed known := by
  obtain ⟨fragments, hlookups, hisolated⟩ := exists_lookups_isolated hlib hfree horder
  refine ⟨_, ?_, hisolated⟩
  rw [Library.isolate, hlookups]
  rfl

end QueryWeave
