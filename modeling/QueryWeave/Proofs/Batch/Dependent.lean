import QueryWeave.Proofs.Batch.Definitions
import QueryWeave.Proofs.Fragment.Reachable

/-!
# Fragments That Depend on Variables

Which of the fragments of an entry are copied, and what its definitions are. A fragment depends on
a variable if it leads along spreads to a body that references one. Isolation decides this in one
pass over a list in the order of resolution, from what it has decided in front. The pass copies
exactly the fragments that depend on a variable, it defines every fragment listed once, and every
spread in a definition names one of the definitions.

- `Library.Depends`: fragments that depend on a variable.
- `Marked`: what holds of the pass at every fragment.
- `isolationLaws_resolve`: what isolation gives for all that a text needs.
- `Session.MergedFrom.closed`: the definitions of an entry, in every merge.
-/

namespace QueryWeave

open Relation

/-! ## §1 Dependence on variables

A fragment depends on a variable if its body has one, or if it spreads a fragment that does.
Isolation never looks that far: it asks whether what is spread was copied. -/

/-- Whether a name leads along spreads to a body that references a variable. This does not mention
the order in which fragments are visited, nor which of them were copied. -/
def Library.Depends (lib : Library) (name : String) : Prop :=
  ∃ other f, ReflTransGen lib.Spreads name other ∧ lib.find? other = some f ∧
    ∃ l ∈ f.row, l.isVariable = true

section Depends

variable {lib : Library} {aliasName : String} {listed : List String} {known : EntryFragments}

/-- What depends on a variable makes everything that spreads it depend on one. -/
theorem Library.Depends.of_spreads {name other : String} (hspreads : lib.Spreads name other)
    (h : lib.Depends other) : lib.Depends name := by
  obtain ⟨last, f, hleads, hfind, hvariable⟩ := h
  exact ⟨last, f, .head hspreads hleads, hfind, hvariable⟩

/-- A stored body spreads its paths by flat name. -/
theorem Library.Registered.spreads_of_mem (hlib : lib.Registered) {name : String} {f : Fragment}
    (hfind : lib.find? name = some f) {path : String} (hpath : path ∈ f.spreadPaths) :
    lib.Spreads name path := by
  have hflat := (hlib.wellStored f (lib.mem_of_find? hfind)).flat
  exact ⟨f, hfind, path, hpath, hflat.flattenPath_eq (spells_scan f.body.toList).1 path hpath⟩

/-- What a listed name spreads is listed. -/
theorem Library.DependenciesFirst.mem_of_spreads (horder : lib.DependenciesFirst listed)
    {name other : String} (hname : name ∈ listed) (hspreads : lib.Spreads name other) :
    other ∈ listed := by
  obtain ⟨before, after, hsplit⟩ := List.append_of_mem hname
  have hbefore := horder.mem_before hsplit hspreads
  rw [hsplit]
  exact List.mem_append_left _ hbefore

/-- What a shared fragment spreads is shared. -/
theorem Isolated.shared_of_spreads (hlib : lib.Registered)
    (h : Isolated lib aliasName listed known) {name other : String} (hname : name ∈ listed)
    (hshared : name ∉ known.copied) (hspreads : lib.Spreads name other) :
    other ∉ known.copied := by
  obtain ⟨f, hfind, path, hpath, rfl⟩ := hspreads
  obtain ⟨-, -, hpaths⟩ := h.shared name hname hshared f hfind
  have hflat := (hlib.wellStored f (lib.mem_of_find? hfind)).flat
  rw [hflat.flattenPath_eq (spells_scan f.body.toList).1 path hpath]
  exact hpaths path hpath

/-- All that a shared fragment leads to is listed and shared. -/
theorem Isolated.shared_of_leads (hlib : lib.Registered)
    (h : Isolated lib aliasName listed known) (horder : lib.DependenciesFirst listed)
    {name other : String} (hname : name ∈ listed) (hshared : name ∉ known.copied)
    (hleads : ReflTransGen lib.Spreads name other) : other ∈ listed ∧ other ∉ known.copied := by
  induction hleads with
  | refl => exact ⟨hname, hshared⟩
  | tail _ hspreads ih =>
    exact ⟨horder.mem_of_spreads ih.1 hspreads, h.shared_of_spreads hlib ih.1 ih.2 hspreads⟩

/-- A shared fragment does not depend on a variable. -/
theorem Isolated.not_depends_of_shared (hlib : lib.Registered)
    (h : Isolated lib aliasName listed known) (horder : lib.DependenciesFirst listed)
    {name : String} (hname : name ∈ listed) (hshared : name ∉ known.copied) :
    ¬ lib.Depends name := by
  rintro ⟨other, f, hleads, hfind, l, hl, hvariable⟩
  obtain ⟨hlisted, hother⟩ := h.shared_of_leads hlib horder hname hshared hleads
  obtain ⟨-, hnone, -⟩ := h.shared other hlisted hother f hfind
  rw [hnone l hl] at hvariable
  cases hvariable

/-! ## §2 The pass along the list

The pass goes over the fragments, dependencies first, and what it has done so far is the invariant:

- `Isolated` says what the definitions and copies are;
- `Marked` says that exactly the dependent fragments were copied.

Each has one lemma for a fragment that is added, and the fold gives the rest. -/

/-- What holds of isolation behind the fragments listed, apart from what each definition says: only
fragments that depend on a variable are copied, and there is one definition for each name listed, in
the order of the list. -/
structure Marked (lib : Library) (aliasName : String) (listed : List String)
    (known : EntryFragments) : Prop where
  depends : ∀ name ∈ known.copied, lib.Depends name
  names : Bindings.names known.definitions = listed.map (copiedPath aliasName known.copied)

theorem marked_empty : Marked lib aliasName [] .empty where
  depends := by simp [EntryFragments.empty]
  names := rfl

/-- Helper: a fragment is defined under a name that is new. -/
private theorem names_put_new (hfree : lib.Free aliasName)
    (h : Isolated lib aliasName listed known) {f : Fragment}
    (hfind : lib.find? f.flatName = some f) (hnew : f.flatName ∉ listed)
    (horder : lib.DependenciesFirst listed) {name : String}
    (hname : name = f.flatName ∨ name = entryName aliasName f.flatName) (definition : String) :
    Bindings.names (known.definitions.put name definition) =
      Bindings.names known.definitions ++ [name] := by
  rw [Bindings.names_put, if_neg]
  intro hmem
  -- Names in use are those of listed fragments, or of copies of them
  rcases h.names name hmem with ⟨hlisted, -⟩ | ⟨own, hown, heq⟩
  · rcases hname with rfl | rfl
    · exact hnew hlisted
    · obtain ⟨g, hg, hflat, -⟩ := horder.fragment _ hlisted
      exact hfree g (lib.mem_of_find? hg) f.flatName hflat
  · rcases hname with rfl | rfl
    · exact hfree f (lib.mem_of_find? hfind) own heq
    · exact hnew (entryName_cancel heq ▸ h.copied_listed own hown)

/-- Helper: names listed before are written as they were. -/
private theorem map_copiedPath_add {name : String} (hnew : name ∉ listed) (copied : List String) :
    listed.map (copiedPath aliasName (Names.add copied name)) =
      listed.map (copiedPath aliasName copied) := by
  apply List.map_congr_left
  intro other hother
  have hne : other ≠ name := fun heq => hnew (heq ▸ hother)
  simp [copiedPath, hne]

/-- Adding a fragment behind those that it spreads. A fragment is copied if it has a variable, or
spreads one that is copied; since those it spreads are in front of it, this is decided when its turn
comes. -/
theorem Marked.add (hlib : lib.Registered) (hfree : lib.Free aliasName)
    (hmarked : Marked lib aliasName listed known) (h : Isolated lib aliasName listed known)
    (horder : lib.DependenciesFirst listed) {f : Fragment}
    (hfind : lib.find? f.flatName = some f) (hnew : f.flatName ∉ listed) :
    Marked lib aliasName (listed ++ [f.flatName]) (known.add aliasName f) := by
  rcases known.add_cases aliasName f with ⟨hcopied, hadd⟩ | ⟨-, hadd⟩
  · -- A copy: it references a variable, or spreads a fragment that depends on one
    have hdepends : lib.Depends f.flatName := by
      rcases hcopied with ⟨l, hl, hvariable⟩ | ⟨path, hpath, hmem⟩
      · exact ⟨f.flatName, f, .refl, hfind, l, hl, hvariable⟩
      · exact .of_spreads (hlib.spreads_of_mem hfind hpath) (hmarked.depends path hmem)
    rw [hadd]
    constructor
    · intro name hname
      rcases Names.mem_add.1 hname with hname | rfl
      · exact hmarked.depends name hname
      · exact hdepends
    · dsimp only
      rw [names_put_new hfree h hfind hnew horder (.inr rfl), hmarked.names, List.map_append,
        map_copiedPath_add hnew]
      simp [copiedPath]
  · rw [hadd]
    refine ⟨hmarked.depends, ?_⟩
    have hshared : f.flatName ∉ known.copied := fun hmem => hnew (h.copied_listed _ hmem)
    dsimp only
    rw [names_put_new hfree h hfind hnew horder (.inl rfl), hmarked.names, List.map_append]
    simp [copiedPath, hshared]

/-- Isolation of fragments that come dependencies first. -/
theorem marked_of_isolate (hlib : lib.Registered) (hfree : lib.Free aliasName)
    (horder : lib.DependenciesFirst listed) :
    Marked lib aliasName listed
        ((listed.filterMap lib.find?).foldl (EntryFragments.add aliasName) .empty) ∧
      Isolated lib aliasName listed
        ((listed.filterMap lib.find?).foldl (EntryFragments.add aliasName) .empty) := by
  induction horder with
  | nil => exact ⟨marked_empty, isolated_empty⟩
  | @snoc listed f horder hfind hnew hfname hcovers ih =>
    obtain ⟨hmarked, hisolated⟩ := ih
    have hlast : [f.flatName].filterMap lib.find? = [f] := by simp [hfind]
    -- One step of the pass, with both invariants of the front
    rw [List.filterMap_append, List.foldl_append, hlast]
    exact ⟨hmarked.add hlib hfree hisolated horder hfind hnew,
      hisolated.add hlib hfree horder hfind hnew hfname hcovers⟩

/-- What is referenced, in the order of the list. -/
theorem referenced_foldl (fragments : List Fragment) (known : EntryFragments) :
    (fragments.foldl (EntryFragments.add aliasName) known).referenced =
      Names.addAll known.referenced (fragments.flatMap fun f => variableNames f.row) := by
  induction fragments generalizing known with
  | nil => rfl
  | cons f rest ih =>
    rw [List.foldl_cons, ih, referenced_add, List.flatMap_cons]
    exact (List.foldl_append).symm

/-! ## §3 Spreads of definitions -/

/-- A definition spreads what its body spreads. -/
theorem pathsSpread_define {name : String} (hname : IsName name.toList) (body : String) :
    pathsSpread (Fragment.define name body) = pathsSpread body := by
  have hrow : (scanText (Fragment.define name body)).lexemes =
      [⟨['\n'], .name, "fragment".toList⟩, ⟨[' '], .name, name.toList⟩] ++
        ((scanText body).indent [' ']).lexemes := scanText_define hname body
  rw [pathsSpread, hrow, spreadPaths, spreads_append_left (by simp)]
  exact spreadPaths_indent [' '] (scanText body)

/-- A copy spreads what the body spreads, copied fragments by their names for the entry. -/
theorem spreadPaths_copyRow {copied : List String} (hon : "on" ∉ copied) {row : List Lexeme}
    (hflat : FlatSpreads row) :
    spreadPaths (copyRow aliasName copied none row) =
      (spreadPaths row).map (copiedPath aliasName copied) := by
  rw [spreadPaths_eq, map_view_copyRow hon hflat, spreadPaths_eq, List.filterMap_map,
    List.map_filterMap]
  rfl

end Depends

/-! ## §4 What isolation gives -/

/-- The lexemes of a body in a copy: variables go by the names of the entry, spreads of copied
fragments name the copies, and all else is as it was. -/
def Fragment.copiedRow (f : Fragment) (aliasName : String) (copied : List String) : List Lexeme :=
  Piece.rowOf ((pieces f.row).map (Piece.copy aliasName copied))

/-- What isolation gives for an alias and a list of fragments. It tells by dependence on variables
which fragments are copied, and spells out every definition: names, bytes and spreads. The last two
laws are about the variables that the entry has to supply besides those of its selections. -/
structure IsolationLaws (lib : Library) (aliasName : String) (listed : List String)
    (known : EntryFragments) : Prop where
  registered : ∀ name ∈ listed, ∃ f, lib.find? name = some f ∧ f.flatName = name
  /-- The fragments that depend on a variable are copied, and no others. -/
  copied_iff : ∀ name, name ∈ known.copied ↔ name ∈ listed ∧ lib.Depends name
  /-- Every fragment listed is defined, a copy under the name of the entry. -/
  names : Bindings.names known.definitions =
    listed.map fun name => if name ∈ known.copied then entryName aliasName name else name
  /-- No name is defined twice. -/
  nodup : (Bindings.names known.definitions).Nodup
  /-- A copy changes the names in the body and nothing else, and is read back as it was made if the
  alias is a name. -/
  copy : ∀ name ∈ known.copied, ∀ f, lib.find? name = some f → ∃ body,
    Bindings.find? (entryName aliasName name) known.definitions =
      some (Fragment.define (entryName aliasName name) body) ∧
    body = String.ofList (Lexeme.charsOf (f.copiedRow aliasName known.copied) ++
      (scanText f.body).trailer) ∧
    (IsName aliasName.toList →
      scanText body = ⟨f.copiedRow aliasName known.copied, (scanText f.body).trailer⟩)
  /-- What is shared has the definition of the library. It references no variable, and spreads
  nothing but what is shared. -/
  shared : ∀ name ∈ listed, name ∉ known.copied → ∀ f, lib.find? name = some f →
    Bindings.find? name known.definitions = some f.definition ∧
    (∀ l ∈ f.row, l.isVariable = false) ∧
    ∀ path ∈ f.spreadPaths, path ∈ listed ∧ path ∉ known.copied
  /-- Every spread in a definition names one of the definitions. The alias of a merge is always a
  name (`Session.MergedFrom.closed`). -/
  closed : IsName aliasName.toList → ∀ pair ∈ known.definitions, ∀ path ∈ pathsSpread pair.2,
    path ∈ Bindings.names known.definitions
  referenced_nodup : known.referenced.Nodup
  mem_referenced_iff : ∀ variableName, variableName ∈ known.referenced ↔
    ∃ name ∈ listed, ∃ f, lib.find? name = some f ∧
      ∃ l ∈ f.row, l.kind = .variable ∧ l.variableName = variableName

section Laws

variable {lib : Library} {aliasName : String} {listed : List String} {known : EntryFragments}

/-- Helper: what is listed is stored flat, and spreads what is listed. -/
private theorem stored_of_listed (hlib : lib.Registered) (horder : lib.DependenciesFirst listed)
    {name : String} (hname : name ∈ listed) {f : Fragment} (hfind : lib.find? name = some f) :
    f.flatName = name ∧ FlatSpreads f.row ∧ ∀ path ∈ f.spreadPaths, path ∈ listed := by
  obtain ⟨g, hg, hflat, -, hcovers⟩ := horder.fragment name hname
  rw [hfind] at hg
  cases hg
  have hmem := lib.mem_of_find? hfind
  exact ⟨hflat, (hlib.wellStored f hmem).flat, mem_of_covers hlib hmem hcovers⟩

/-- Helper: whatever is listed has its definition, and the definition spreads what the body does
under the names in the definitions. -/
private theorem Isolated.definition (hlib : lib.Registered) (halias : IsName aliasName.toList)
    (h : Isolated lib aliasName listed known) (horder : lib.DependenciesFirst listed)
    {name : String} (hname : name ∈ listed) {f : Fragment} (hfind : lib.find? name = some f) :
    ∃ text, Bindings.find? (copiedPath aliasName known.copied name) known.definitions = some text ∧
      pathsSpread text = f.spreadPaths.map (copiedPath aliasName known.copied) := by
  obtain ⟨hflatName, hflat, -⟩ := stored_of_listed hlib horder hname hfind
  obtain ⟨-, -, -, hspreadName, -⟩ := horder.fragment name hname
  have hon : "on" ∉ known.copied := h.on_not_mem horder
  -- A copy spreads copies by their new names, and what is shared spreads none
  by_cases hcopied : name ∈ known.copied
  · refine ⟨_, by rw [copiedPath, if_pos hcopied]; exact h.copy name hcopied f hfind, ?_⟩
    rw [pathsSpread_define (isName_entryName halias hspreadName.1.all), pathsSpread,
      scan_copyBody halias]
    exact spreadPaths_copyRow hon hflat
  · obtain ⟨hdefinition, -, hpaths⟩ := h.shared name hname hcopied f hfind
    refine ⟨_, by rw [copiedPath, if_neg hcopied]; exact hdefinition, ?_⟩
    have hkept : ∀ path ∈ f.spreadPaths, copiedPath aliasName known.copied path = id path :=
      fun path hpath => if_neg (hpaths path hpath)
    rw [Fragment.definition, hflatName, pathsSpread_define hspreadName.1,
      List.map_congr_left hkept, List.map_id]
    rfl

/-- Helper: what a definition spreads has a definition. -/
private theorem Marked.closed (hmarked : Marked lib aliasName listed known) (hlib : lib.Registered)
    (halias : IsName aliasName.toList) (h : Isolated lib aliasName listed known)
    (horder : lib.DependenciesFirst listed)
    (hnodup : (Bindings.names known.definitions).Nodup) :
    ∀ pair ∈ known.definitions, ∀ path ∈ pathsSpread pair.2,
      path ∈ Bindings.names known.definitions := by
  rintro ⟨name, text⟩ hpair path hpath
  have hname : name ∈ Bindings.names known.definitions :=
    List.mem_map_of_mem (f := Prod.fst) hpair
  rw [hmarked.names] at hname ⊢
  obtain ⟨own, hown, rfl⟩ := List.mem_map.1 hname
  obtain ⟨f, hfind, -⟩ := horder.fragment own hown
  -- The definition is that of a listed fragment, and spreads what is listed
  obtain ⟨text', htext, hspreads⟩ := h.definition hlib halias horder hown hfind
  rw [Bindings.find?_of_mem hnodup hpair] at htext
  cases htext
  rw [hspreads] at hpath
  obtain ⟨old, hold, rfl⟩ := List.mem_map.1 hpath
  obtain ⟨-, -, hlisted⟩ := stored_of_listed hlib horder hown hfind
  exact List.mem_map_of_mem (hlisted old hold)

/-- **Isolation copies exactly what depends on variables, and its definitions are closed**, for all
that a text needs of a library built by registrations. The one condition on the alias is that no
fragment of the library is called like a copy. -/
theorem isolationLaws_resolve (hlib : lib.Registered) {text : String} {resolved : Resolved}
    (hresolve : lib.resolve text = .ok resolved) (hfree : lib.Free aliasName) :
    ∃ known, lib.isolate aliasName resolved.used = .ok known ∧
      IsolationLaws lib aliasName resolved.used known := by
  obtain ⟨-, horder, -⟩ := Library.dependenciesFirst_of_resolve hresolve
  obtain ⟨known, hknown, h⟩ := isolated_of_isolate hlib hfree horder
  obtain ⟨hmarked, -⟩ := marked_of_isolate hlib hfree horder
  -- The same fold was walked twice: for what the copies are, and for which fragments depend
  have hfold := Library.isolate_inversion hknown
  rw [← hfold] at hmarked
  have hnodup : (Bindings.names known.definitions).Nodup := by
    rw [hfold]
    exact nodup_definitions aliasName _ List.nodup_nil
  have hon : "on" ∉ known.copied := h.on_not_mem horder
  refine ⟨known, hknown, ?_⟩
  constructor
  case registered =>
    intro name hname
    obtain ⟨f, hfind, hflat, -⟩ := horder.fragment name hname
    exact ⟨f, hfind, hflat⟩
  case copied_iff =>
    intro name
    refine ⟨fun hcopied => ⟨h.copied_listed name hcopied, hmarked.depends name hcopied⟩, ?_⟩
    rintro ⟨hlisted, hdepends⟩
    -- One that depends on a variable and is shared would spread a copy, or reference the variable
    by_contra hshared
    exact h.not_depends_of_shared hlib horder hlisted hshared hdepends
  case names => exact hmarked.names
  case nodup => exact hnodup
  case copy =>
    intro name hcopied f hfind
    obtain ⟨-, hflat, -⟩ := stored_of_listed hlib horder (h.copied_listed name hcopied) hfind
    have hrow : copyRow aliasName known.copied none f.row = f.copiedRow aliasName known.copied :=
      copyRow_eq hflat hon
    refine ⟨_, h.copy name hcopied f hfind, ?_, fun halias => ?_⟩
    · rw [← hrow]
      rfl
    · rw [scan_copyBody halias, ← hrow]
      rfl
  case shared =>
    intro name hname hshared f hfind
    obtain ⟨hdefinition, hvariables, hpaths⟩ := h.shared name hname hshared f hfind
    obtain ⟨-, -, hlisted⟩ := stored_of_listed hlib horder hname hfind
    exact ⟨hdefinition, hvariables, fun path hpath => ⟨hlisted path hpath, hpaths path hpath⟩⟩
  case closed =>
    exact fun halias => hmarked.closed hlib halias h horder hnodup
  case referenced_nodup =>
    rw [hfold, referenced_foldl]
    exact Names.nodup_addAll List.nodup_nil _
  case mem_referenced_iff =>
    intro variableName
    rw [hfold, referenced_foldl]
    simp only [EntryFragments.empty, Names.mem_addAll, List.not_mem_nil, false_or, List.mem_flatMap,
      List.mem_filterMap, mem_variableNames_iff]
    constructor
    · rintro ⟨f, ⟨name, hname, hfind⟩, hl⟩
      exact ⟨name, hname, f, hfind, hl⟩
    · rintro ⟨name, hname, f, hfind, hl⟩
      exact ⟨f, ⟨name, hname, hfind⟩, hl⟩

end Laws

/-- In every merge of a run the alias is a name, and so the definitions that the entry brings along
are closed: whatever one of them spreads is defined by another, as `IsolationLaws.closed` says of an
alias that is a name. -/
theorem Session.MergedFrom.closed {s : Session} {steps : List SessionStep} {lib : Library}
    {template : Template} {values : JsonObject} {entry : Entry}
    (h : s.MergedFrom steps lib template values entry) (hlib : lib.Registered)
    (hfree : lib.Free entry.aliasName) :
    ∀ pair ∈ entry.fragments, ∀ path ∈ pathsSpread pair.2,
      path ∈ Bindings.names entry.fragments := by
  obtain ⟨⟨code, hcode⟩, ⟨w⟩⟩ := h.woven
  obtain ⟨c⟩ := Library.compilation_of_compile w.compiles
  have halias : IsName entry.aliasName.toList := hcode ▸ isName_aliasOfCode code
  have hnodup := w.nodup_fragments
  -- What the entry isolates is what its compiled operation needs, in the order of resolution
  obtain ⟨hmarked, -⟩ := marked_of_isolate hlib hfree c.order
  rw [← Library.isolate_inversion w.isolates] at hmarked
  rw [w.fragments_eq] at hnodup ⊢
  exact hmarked.closed hlib halias (w.isolated hlib hfree) c.order hnodup

/-- A card with a picture whose size is a variable, and with a footer that is always the same. -/
def cards : Library :=
  ⟨[⟨"card", "on Post {...picture ...footer}"⟩,
    ⟨"picture", "on Post {image(size: $size)}"⟩,
    ⟨"footer", "on Post {id}"⟩]⟩

private theorem registered_cards : cards.Registered := by
  have hcard : Library.empty.register "card" "on Post {...picture ...footer}" =
      .ok ⟨cards.fragments.take 1⟩ := by
    decide +kernel
  have hpicture : (⟨cards.fragments.take 1⟩ : Library).register "picture"
      "on Post {image(size: $size)}" = .ok ⟨cards.fragments.take 2⟩ := by
    decide +kernel
  have hfooter : (⟨cards.fragments.take 2⟩ : Library).register "footer" "on Post {id}" =
      .ok cards := by
    decide +kernel
  exact .register (.register (.register .empty hcard) hpicture) hfooter

private theorem free_cards : cards.Free "merge0001" := by
  intro f hf name heq
  have hnames : ∀ f ∈ cards.fragments, f.flatName.toList.head? ≠ some 'm' := by decide
  apply hnames f hf
  rw [heq, entryName, String.append_assoc, String.toList_append]
  rfl

/-- Helper: the search goes through a fragment that is new to it, and on from there. -/
private theorem needs_new {lib : Library} {visiting rest used below : List String}
    {path name body : String}
    (hfind : lib.find? path = some ⟨name, body⟩) (hname : flattenPath name = name)
    (hused : name ∉ used) (hvisiting : name ∉ visiting)
    (hbelow : lib.needs (visiting ++ [name]) (Fragment.spreadPaths ⟨name, body⟩) used = .ok below) :
    lib.needs visiting (path :: rest) used = lib.needs visiting rest (Names.add below name) := by
  have hflat : Fragment.flatName ⟨name, body⟩ = name := hname
  rw [Library.needs_of_find? hfind, hflat, if_neg hused, if_neg hvisiting, hbelow]
  rfl

private theorem needs_cards : cards.needs [] ["card"] [] = .ok ["picture", "footer", "card"] := by
  have hcard : cards.find? "card" =
      some ⟨"card", "on Post {...picture ...footer}"⟩ := by decide +kernel
  have hpicture : cards.find? "picture" =
      some ⟨"picture", "on Post {image(size: $size)}"⟩ := by decide +kernel
  have hfooter : cards.find? "footer" = some ⟨"footer", "on Post {id}"⟩ := by decide +kernel
  have hpaths : cards.fragments.map Fragment.spreadPaths = [["picture", "footer"], [], []] := by
    decide +kernel
  simp only [cards, List.map_cons, List.map_nil, List.cons.injEq, and_true] at hpaths
  obtain ⟨hcardPaths, hpicturePaths, hfooterPaths⟩ := hpaths
  -- Below the card, the picture and then the footer
  have hbelow : cards.needs ["card"] ["picture", "footer"] [] = .ok ["picture", "footer"] := by
    rw [@needs_new _ _ _ _ [] _ _ _ hpicture (by decide) (by simp) (by simp)
        (by rw [hpicturePaths, Library.needs_nil]),
      @needs_new _ _ _ _ ["picture"] _ _ _ hfooter (by decide) (by decide) (by decide)
        (by rw [hfooterPaths, Library.needs_nil]; rfl), Library.needs_nil]
    rfl
  rw [@needs_new _ _ _ _ ["picture", "footer"] _ _ _ hcard (by decide) (by simp) (by simp)
    (by rw [hcardPaths]; exact hbelow), Library.needs_nil]
  rfl

theorem isolationLaws_cards : cards.Registered ∧ cards.Free "merge0001" ∧
    ∃ resolved, cards.resolve "query {post {...card}}" = .ok resolved ∧
      resolved.used = ["picture", "footer", "card"] ∧
      ∃ known, cards.isolate "merge0001" resolved.used = .ok known ∧
        IsolationLaws cards "merge0001" resolved.used known := by
  have hspread :
      spreadPaths (scanText "query {post {...card}}").lexemes = ["card"] := by
    decide +kernel
  have hresolve : ∃ resolved,
      cards.resolve "query {post {...card}}" = .ok resolved ∧
        resolved.used = ["picture", "footer", "card"] := by
    rw [Library.resolve, hspread, needs_cards]
    exact ⟨_, rfl, rfl⟩
  obtain ⟨resolved, hresolved, hused⟩ := hresolve
  exact ⟨registered_cards, free_cards, resolved, hresolved, hused,
    isolationLaws_resolve registered_cards hresolved free_cards⟩

/-- The picture is copied, and the card because of it. -/
example : (cards.isolate "merge0001" ["picture", "footer", "card"]).map (fun known =>
    (known.copied, Bindings.names known.definitions)) =
    .ok (["picture", "card"], ["merge0001_picture", "footer", "merge0001_card"]) := by
  decide +kernel

end QueryWeave
