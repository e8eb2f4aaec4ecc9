import QueryWeave.Proofs.Batch.Entries
import QueryWeave.Proofs.Batch.Inlining
import QueryWeave.Proofs.Batch.Keys
import QueryWeave.Proofs.Batch.Sent

/-!
# Merging Preserves Meaning

What selections say: every spread is replaced by the body that it stands for, and every variable by
the value that is sent for it, or else by its default. An operation by itself takes the bodies from
the library. An entry takes them from the document of its commit, and has its alias on response
keys, variables and copied fragments. With the alias off the response keys, both say the same.

- `Means`: what selections mean, as a relation.
- `Commit.Batch.says`: an entry means what its operation means.
-/

namespace QueryWeave

/-! ## §1 Meaning

What selections mean is a row of symbols. To get them, every spread is inlined by the body of its
path, and every variable is replaced by what it stands for; all other tokens mean themselves. An
entry is read so in its commit, and an operation in the library it is compiled against. -/

/-- A part of what selections mean. Names, punctuators and strings mean themselves, and a variable
means what it stands for: its value, or the text of its default where no value is sent. -/
inductive Symbol where
  | token (t : Token)
  /-- The value sent for a variable. -/
  | value (value : Json)
  /-- The default of a variable that no value is sent for. -/
  | defaultText (text : String)

/-- What a variable stands for: the value sent for it, or else the default it is declared with. -/
def variableSymbol (values : JsonObject) (ds : List Declaration) (name : String) :
    Option Symbol :=
  match values.find? name with
  | some value => some (.value value)
  | none => (ds.findSome? fun d => if d.name = name then d.defaultText else none).map .defaultText

/-- What a token stands for. A variable without value and default stands for nothing. -/
def Token.symbol (values : JsonObject) (ds : List Declaration) (t : Token) : Option Symbol :=
  if t.1 = .variable then variableSymbol values ds (String.ofList (t.2.drop 1))
  else some (.token t)

/-- What selections mean, their spreads standing for the bodies that `body` gives. -/
def Means (body : String → Option (List Lexeme)) (values : JsonObject) (ds : List Declaration)
    (row : List Lexeme) (symbols : List Symbol) : Prop :=
  ∃ inlined, Inlines body (pieces row) inlined ∧
    inlined.map (fun l => l.token.symbol values ds) = symbols.map some

theorem Means.unique {body : String → Option (List Lexeme)} {values : JsonObject}
    {ds : List Declaration} {row : List Lexeme} {symbols other : List Symbol}
    (h : Means body values ds row symbols) (h' : Means body values ds row other) :
    symbols = other := by
  obtain ⟨inlined, hinlined, hsymbols⟩ := h
  obtain ⟨inlined', hinlined', hother⟩ := h'
  rw [hinlined.unique hinlined', hother] at hsymbols
  exact (List.map_injective_iff.2 (fun _ _ => Option.some.inj) hsymbols).symm

/-- What a compiled operation says by itself. -/
def Library.Says (lib : Library) (compiled : Compiled) (values : JsonObject)
    (symbols : List Symbol) : Prop :=
  ∃ o, Outline.ofText? compiled.operation = some o ∧
    Means lib.bodyOf (stripModifiers values) compiled.declarations
      (writtenKeys .start o.selection.inner) symbols

/-- The body in a row that defines a fragment under a name: what stands behind the keyword and the
name. A row that begins otherwise defines nothing under the name. -/
def definitionBody? (name : String) : List Lexeme → Option (List Lexeme)
  | keyword :: defined :: body =>
    if keyword.token = (.name, "fragment".toList) ∧ defined.token = (.name, name.toList) then
      some body
    else none
  | _ => none

/-- The body that a commit sends under a name, read from the definition that is kept under it.
That the document holds these definitions, and no others, is `Commit.Defines`. -/
def Commit.bodyOf (held : Commit) (name : String) : Option (List Lexeme) :=
  (Bindings.find? name held.fragments).bind fun definition =>
    definitionBody? name (scanText definition).lexemes

/-- What an entry says in a commit. -/
def Commit.Says (held : Commit) (entry : Entry) (symbols : List Symbol) : Prop :=
  Means held.bodyOf held.values entry.declarations
    (writtenKeys .start
      (stripKeys entry.aliasName .start (scanText entry.selection).lexemes)) symbols

/-! ## §2 Variables -/

/-- An entry's variable stands for what the variable stands for by itself. The values and the
declarations of the other entries are under other aliases, and are not found under this one. -/
theorem Commit.Batch.symbol_rename {held : Commit} {lib : Library} (h : held.Batch lib)
    {entry : Entry} (hentry : entry ∈ held.entries) {template : Template} {values : JsonObject}
    (w : Woven lib template values entry) (t : Token) :
    (t.rename entry.aliasName).symbol held.values entry.declarations =
      t.symbol (stripModifiers values) w.compiled.declarations := by
  by_cases hkind : t.1 = .variable
  · have hdefault : ∀ name,
        (entry.declarations.findSome? fun d =>
          if d.name = entryVariable entry.aliasName name then d.defaultText else none) =
        w.compiled.declarations.findSome? fun d =>
          if d.name = name then d.defaultText else none := by
      intro name
      rw [w.declarations_eq, List.findSome?_map]
      congr 1
      funext d
      have hname : entryVariable entry.aliasName d.name = entryVariable entry.aliasName name ↔
          d.name = name := ⟨entryVariable_cancel, congrArg _⟩
      simp only [Function.comp_apply, Declaration.toEntry, hname]
    -- Value and default are both looked up under the entry's name for the variable
    simp only [Token.rename, Token.symbol, hkind, if_true, List.drop_succ_cons, List.drop_zero,
      String.ofList_toList, variableSymbol, h.find?_values hentry, w.supplied_eq, hdefault]
  · simp [Token.rename, Token.symbol, hkind]

/-- In a commit that lacks no variable, everything referenced stands for something: for the value
that was given, or else for the default that is declared. -/
theorem Woven.isSome_variableSymbol {held : Commit} (hcomplete : held.missing? = none)
    {entry : Entry} (hentry : entry ∈ held.entries) {lib : Library} {template : Template}
    {values : JsonObject} (w : Woven lib template values entry) {name : String}
    (hname : name ∈ entry.referenced) :
    (variableSymbol (stripModifiers values) w.compiled.declarations name).isSome := by
  have hnone : entry.missingVariable? = none := by
    rw [Commit.missing?, List.findSome?_eq_none_iff] at hcomplete
    simpa using hcomplete entry hentry
  have hbound := List.find?_eq_none.1 hnone name hname
  unfold variableSymbol
  cases hfind : Bindings.find? name (stripModifiers values) with
  | some value => rfl
  | none =>
    -- No value is given, so that the variable has a default
    have hdefaulted : name ∈ entry.defaulted := by
      rw [← w.supplied_eq] at hfind
      simpa [Bindings.binds, hfind] using hbound
    rw [w.defaulted_eq] at hdefaulted
    obtain ⟨d, hd, rfl⟩ := List.mem_map.1 hdefaulted
    obtain ⟨hmem, hdefault⟩ := List.mem_filter.1 hd
    rw [Option.isSome_map, List.isSome_findSome?, List.any_eq_true]
    exact ⟨d, hmem, by simpa using hdefault⟩

/-! ## §3 Bodies -/

/-- A definition is read as its body, behind the blank that follows the name. -/
theorem Commit.bodyOf_eq {held : Commit} {name body : String} (hname : IsName name.toList)
    (h : Bindings.find? name held.fragments = some (Fragment.define name body)) :
    held.bodyOf name = some ((scanText body).indent [' ']).lexemes := by
  rw [Commit.bodyOf, h, Option.bind_some, scanText_define hname]
  simp [definitionBody?, Lexeme.token]

/-- The definitions of a document are copies, for an entry, of the bodies that it needs. Some are
shared and stand under the name that they have in the library; to the entry these are copies as
well, with nothing renamed. -/
theorem Commit.Batch.bodies {held : Commit} {lib : Library} (h : held.Batch lib) {entry : Entry}
    (hentry : entry ∈ held.entries) {template : Template} {values : JsonObject}
    (w : Woven lib template values entry) :
    ∀ path ∈ w.compiled.fragmentNames, ∀ definition, lib.bodyOf path = some definition →
      (∀ path ∈ spreadPaths definition, path ∈ w.compiled.fragmentNames) ∧
      ∃ copy, held.bodyOf (copiedPath entry.aliasName w.fragments.copied path) = some copy ∧
        (pieces copy).map Piece.view = ((pieces definition).map Piece.view).map
          (copiedView entry.aliasName w.fragments.copied) := by
  obtain ⟨c⟩ := Library.compilation_of_compile w.compiles
  have hisolated := w.isolated h.registered (h.free entry hentry)
  have hon : "on" ∉ w.fragments.copied := fun hmem =>
    c.order.on_not_mem (hisolated.copied_listed "on" hmem)
  intro path hpath definition hdefinition
  obtain ⟨f, hfind, rfl⟩ := Option.map_eq_some_iff.1 hdefinition
  obtain ⟨f', hfind', hflatName, ⟨hname, -⟩, hcovers⟩ := c.order.fragment path hpath
  rw [hfind] at hfind'
  cases hfind'
  have hmem := lib.mem_of_find? hfind
  have hflat := (h.registered.wellStored f hmem).flat
  refine ⟨mem_of_covers h.registered hmem hcovers, ?_⟩
  by_cases hcopied : path ∈ w.fragments.copied
  · -- A copied body is sent under the entry's own name
    have hown : IsName (entryName entry.aliasName path).toList :=
      isName_entryName (h.isName_alias hentry) hname.all
    have hcopy := Commit.bodyOf_eq hown (h.find?_copied hentry w hcopied hfind)
    rw [copiedPath, if_pos hcopied]
    refine ⟨_, hcopy, ?_⟩
    rw [map_view_indent, scan_copyBody (h.isName_alias hentry)]
    exact map_view_copyRow hon hflat
  · obtain ⟨-, hvariables, hpaths⟩ := hisolated.shared path hpath hcopied f hfind
    have hsent := h.find?_shared hentry w hpath hcopied hfind
    rw [Fragment.definition, hflatName] at hsent
    rw [copiedPath, if_neg hcopied]
    refine ⟨_, Commit.bodyOf_eq hname hsent, ?_⟩
    -- A shared body is its own copy
    rw [map_view_indent, ← map_view_copyRow hon hflat, copyRow_eq_self hflat hon hvariables hpaths]
    rfl

/-! ## §4 Entries

Both sides are inlined in step: the selections of the entry are a copy of those of the operation,
and the bodies sent are copies of the bodies of the library. Variables are compared last, token by
token. -/

/-- Helper: everything stands for something, if every token does. -/
private theorem exists_symbols {f : Lexeme → Option Symbol} {inlined : List Lexeme}
    (h : ∀ l ∈ inlined, (f l).isSome) :
    ∃ symbols : List Symbol, inlined.map f = symbols.map some := by
  induction inlined with
  | nil => exact ⟨[], rfl⟩
  | cons l rest ih =>
    obtain ⟨symbol, hsymbol⟩ := Option.isSome_iff_exists.1 (h l List.mem_cons_self)
    obtain ⟨symbols, hsymbols⟩ := ih fun m hm => h m (List.mem_cons_of_mem _ hm)
    exact ⟨symbol :: symbols, by rw [List.map_cons, List.map_cons, hsymbol, hsymbols]⟩

/-- The selections of an entry with every key written out, without the alias: a copy of the
selections of its operation, which are flat and spread what the operation needs. -/
private structure WrittenOut {lib : Library} {template : Template} {values : JsonObject}
    {entry : Entry} (w : Woven lib template values entry) (row : List Lexeme) : Prop where
  operation : ∃ gap left, writtenKeys .start w.outline.selection.inner =
    (Scan.indent gap ⟨row, left⟩).lexemes
  entry : writtenKeys .start
      (stripKeys entry.aliasName .start (scanText entry.selection).lexemes) =
    copyRow entry.aliasName w.fragments.copied none row
  flat : FlatSpreads row
  listed : ∀ path ∈ spreadPaths row, path ∈ w.compiled.fragmentNames

private theorem Woven.writtenOut {lib : Library} {template : Template} {values : JsonObject}
    {entry : Entry} (w : Woven lib template values entry) (halias : IsName entry.aliasName.toList)
    (hapart : keysApart .start w.outline.selection.inner = true) : ∃ row, WrittenOut w row := by
  obtain ⟨c⟩ := Library.compilation_of_compile w.compiles
  obtain ⟨row, aliased, trailer, hselections⟩ := w.selections halias hapart
  obtain ⟨blanks, left, -, hinner⟩ := hselections.inner
  have hlexemes : w.outline.selection.inner = (Scan.indent blanks ⟨row, left⟩).lexemes :=
    congrArg Scan.lexemes hinner
  have hclear : SelectionPoint.start.Clear := fun _ => rfl
  have hplain := plainTop_of_aliasRow hclear hselections.aliases
  -- The operation is flat, and so are its selections, with the blanks in front or without
  have hflatInner : FlatSpreads w.outline.selection.inner :=
    fun s hs => c.flat s (Outline.mem_spreads w.outlines hs)
  have hflat : FlatSpreads row := by
    rw [hlexemes] at hflatInner
    exact hflatInner.of_indent
  refine ⟨writtenKeys .start row, ⟨blanks, left, ?_⟩, ?_, ?_, ?_⟩
  · rw [hlexemes, writtenKeys_indent]
  · rw [hselections.scans]
    exact writtenKeys_stripKeys hclear (SelectionPoint.agrees_refl _)
      (SelectionPoint.agrees_refl _) hselections.aliases
  · exact fun s hs => hflat s (mem_spreads_writtenKeys hflat hplain hs)
  · -- What is spread here is spread by the operation, and all of that is listed
    intro path hpath
    obtain ⟨s, hs, rfl⟩ := List.mem_map.1 hpath
    have hrow : s.path ∈ spreadPaths row :=
      List.mem_map_of_mem (mem_spreads_writtenKeys hflat hplain hs)
    rw [← spreadPaths_indent blanks ⟨row, left⟩, ← hlexemes] at hrow
    obtain ⟨t, ht, hsame⟩ := List.mem_map.1 hrow
    rw [← hsame]
    exact c.covers.mem c.flat (spells_scan w.compiled.operation.toList).1 _
      (List.mem_map_of_mem (Outline.mem_spreads w.outlines ht))

/-- Every token that is inlined into the selections of an operation stands for something. It is a
token of the operation or of a body that is listed, so its variable is among those the entry
references. -/
theorem Commit.Batch.isSome_symbol {held : Commit} {lib : Library} (h : held.Batch lib)
    (hcomplete : held.missing? = none) {entry : Entry} (hentry : entry ∈ held.entries)
    {template : Template} {values : JsonObject} (w : Woven lib template values entry)
    {inlined : List Lexeme}
    (hinlined : Inlines lib.bodyOf (pieces (writtenKeys .start w.outline.selection.inner)) inlined)
    (hlisted : ∀ path ∈ spreadPaths (writtenKeys .start w.outline.selection.inner),
      path ∈ w.compiled.fragmentNames) {l : Lexeme} (hl : l ∈ inlined) :
    (l.token.symbol (stripModifiers values) w.compiled.declarations).isSome := by
  have hisolated := w.isolated h.registered (h.free entry hentry)
  by_cases hkind : l.kind = .variable
  · have hvariable := Lexeme.isVariable_iff.2 hkind
    -- A variable is referenced in the selections, or in a body that they need
    have hreferenced : l.variableName ∈ entry.referenced := by
      rw [w.referenced_eq, Names.mem_addAll]
      have hbelow := fun path hpath definition hdefinition =>
        (h.bodies hentry w path hpath definition hdefinition).1
      rcases hinlined.mem hbelow (fun s hs => hlisted _ (List.mem_map_of_mem hs)) hl
        with hrow | hbody
      · rw [rowOf_pieces] at hrow
        have hmem := mem_writtenKeys_of_isVariable hrow hvariable
        left
        apply Names.mem_distinct.2
        apply mem_variableNames _ hvariable
        exact List.mem_append_left _ (List.mem_cons_of_mem _ hmem)
      · obtain ⟨path, hpath, definition, hdefinition, hmem⟩ := hbody
        obtain ⟨f, hfind, rfl⟩ := Option.map_eq_some_iff.1 hdefinition
        exact .inr (hisolated.referenced path hpath f hfind l hmem hvariable)
    rw [Token.symbol, if_pos (show l.token.1 = .variable from hkind)]
    exact w.isSome_variableSymbol hcomplete hentry hreferenced
  · rw [Token.symbol, if_neg (show l.token.1 ≠ .variable from hkind)]
    rfl

/-- An entry means in its commit what its operation means by itself. Both rows are inlined, the one
of the commit as a copy of the other; then the symbols agree token by token. -/
theorem Commit.Batch.says {held : Commit} {lib : Library} (h : held.Batch lib)
    (hcomplete : held.missing? = none) {entry : Entry} (hentry : entry ∈ held.entries)
    {template : Template} {values : JsonObject} (w : Woven lib template values entry)
    (hapart : keysApart .start w.outline.selection.inner = true) :
    ∃ symbols, lib.Says w.compiled values symbols ∧ held.Says entry symbols := by
  obtain ⟨c⟩ := Library.compilation_of_compile w.compiles
  have hisolated := w.isolated h.registered (h.free entry hentry)
  have hon : "on" ∉ w.fragments.copied := fun hmem =>
    c.order.on_not_mem (hisolated.copied_listed "on" hmem)
  obtain ⟨row, hwritten⟩ := w.writtenOut (h.isName_alias hentry) hapart
  obtain ⟨gap, left, hoperation⟩ := hwritten.operation
  have hlisted : ∀ path ∈ spreadPaths (writtenKeys .start w.outline.selection.inner),
      path ∈ w.compiled.fragmentNames := by
    rw [hoperation, spreadPaths_indent]
    exact hwritten.listed
  -- Both rows can be inlined, and what is inlined into the second is a copy
  have hcovers : lib.Covers w.compiled.fragmentNames
      (spreadPaths (writtenKeys .start w.outline.selection.inner)) := by
    intro path hpath
    obtain ⟨f, hfind, hflatName, -, -⟩ := c.order.fragment path (hlisted path hpath)
    exact ⟨f, hfind, hflatName ▸ hlisted path hpath⟩
  obtain ⟨inlined, hinlined⟩ := @inlines_of_covers lib _ c.order
    (pieces (writtenKeys .start w.outline.selection.inner)) hcovers
  have hviews : (pieces (copyRow entry.aliasName w.fragments.copied none row)).map Piece.view =
      ((pieces (writtenKeys .start w.outline.selection.inner)).map Piece.view).map
        (copiedView entry.aliasName w.fragments.copied) := by
    rw [map_view_copyRow hon hwritten.flat, hoperation, map_view_indent]
  obtain ⟨copy, hcopy, htokens⟩ := hinlined.copy (h.bodies hentry w)
    (fun s hs => hlisted _ (List.mem_map_of_mem hs)) hviews
  obtain ⟨symbols, hsymbols⟩ :=
    exists_symbols fun l hl => h.isSome_symbol hcomplete hentry w hinlined hlisted hl
  refine ⟨symbols, ⟨w.outline, w.outlines, inlined, hinlined, hsymbols⟩, ?_⟩
  rw [Commit.Says, hwritten.entry]
  refine ⟨copy, hcopy, ?_⟩
  calc copy.map (fun l => l.token.symbol held.values entry.declarations)
      = (copy.map Lexeme.token).map (Token.symbol held.values entry.declarations) := by
        rw [List.map_map]
        rfl
    _ = inlined.map fun l =>
          (l.token.rename entry.aliasName).symbol held.values entry.declarations := by
        rw [htokens, List.map_map]
        rfl
    _ = symbols.map some := by
        simp only [h.symbol_rename hentry w, hsymbols]

end QueryWeave
