import QueryWeave.Proofs.Batch.Definitions
import QueryWeave.Proofs.Batch.Document

/-!
# Merging Keeps Meaning

In the document of a commit stand the selections of its entries, and behind them the definitions
that these were brought along with. Read from there, with the variables that are sent, an entry says
what its operation says by itself.

The theorem has two halves. The first is about the document: its outline gives back the declarations
and the selections of all entries, and the rest of its text is one definition of each name. The
second is about the entries: their selections, with these bodies inlined and these values put in,
are those of their operations.

- `Commit.Defines`: the definitions that an outline of the document leaves behind the selections.
- `Commit.Batch.exists_document`: the document of a batch is read as its parts.
- `Session.merge_keeps_meaning`: every entry means what its operation means.
- `Session.not_preserves_gluedKey`: a key of no documented form under which one does not.
-/

namespace QueryWeave

/-! ## §1 Definitions that are sent -/

/-- What an entry brings along under a name is a definition of that name. -/
theorem Woven.define_of_mem {lib : Library} {template : Template} {values : JsonObject}
    {entry : Entry} (w : Woven lib template values entry) (hlib : lib.Registered)
    (hfree : lib.Free entry.aliasName) (halias : IsName entry.aliasName.toList)
    {name text : String} (hpair : (name, text) ∈ entry.fragments) :
    IsName name.toList ∧ ∃ body, text = Fragment.define name body := by
  have hisolated := w.isolated hlib hfree
  obtain ⟨c⟩ := Library.compilation_of_compile w.compiles
  have hfound := Bindings.find?_of_mem w.nodup_fragments hpair
  rw [w.fragments_eq] at hpair hfound
  rcases hisolated.names name (List.mem_map_of_mem (f := Prod.fst) hpair) with
    ⟨hlisted, hshared⟩ | ⟨own, hown, rfl⟩
  · -- A shared fragment is defined under its flat name
    obtain ⟨f, hfind, hflat, ⟨hname, -⟩, -⟩ := c.order.fragment name hlisted
    have hdefinition := (hisolated.shared name hlisted hshared f hfind).1
    rw [hfound, Fragment.definition, hflat] at hdefinition
    exact ⟨hname, f.body, Option.some.inj hdefinition⟩
  · -- And a copy under a name of the entry
    obtain ⟨f, hfind, -, ⟨hname, -⟩, -⟩ :=
      c.order.fragment own (hisolated.copied_listed own hown)
    have hcopy := hisolated.copy own hown f hfind
    rw [hfound] at hcopy
    exact ⟨isName_entryName halias hname.all, _, Option.some.inj hcopy⟩

namespace Commit

/-- What stands behind the selections in a document: the definitions that the commit keeps.

`written` is about the text, whatever the bodies are. `tokens` is about what is read of it, and for
that a body must not reach across its end: one that leaves a block string open swallows the
definitions below it. -/
structure Defines (held : Commit) (o : Outline) : Prop where
  /-- The text behind the selections is all definitions, each behind a line feed. -/
  written : Lexeme.charsOf o.after ++ o.trailer =
    held.fragments.flatMap fun f => '\n' :: f.2.toList
  /-- Definitions whose strings are closed are read one by one. -/
  tokens : (∀ text ∈ held.definitions, Sealed text) →
    o.after.map Lexeme.token =
      held.fragments.flatMap fun f => (scanText f.2).lexemes.map Lexeme.token
  /-- No name is defined twice. -/
  once : (Bindings.names held.fragments).Nodup
  /-- Under each name stands a definition of that name. -/
  named : ∀ name text, (name, text) ∈ held.fragments →
    IsName name.toList ∧ ∃ body, text = Fragment.define name body
  /-- A spread stands for the body that is defined under its name, and for nothing else. -/
  bodies : ∀ name row, held.bodyOf name = some row ↔
    ∃ body, (name, Fragment.define name body) ∈ held.fragments ∧
      row = ((scanText body).indent [' ']).lexemes

/-- Helper: the tokens of definitions that are read one by one. -/
private theorem tokens_definitions {held : Commit} (h : ∀ text ∈ held.definitions, Sealed text) :
    (QueryWeave.scan held.definitions.flatten).lexemes.map Lexeme.token =
      held.fragments.flatMap fun f => (scanText f.2).lexemes.map Lexeme.token := by
  have hline : IsGap ['\n'] := rfl
  rw [tokens_flatten h, definitions, List.flatMap_map]
  apply congrArg (List.flatMap · held.fragments)
  funext f
  -- The line feed goes into the first gap, which no token shows
  have hscan : QueryWeave.scan ('\n' :: f.2.toList) = (scanText f.2).indent ['\n'] :=
    scan_gap_append hline f.2.toList
  rw [hscan, tokens_indent]

namespace Batch

variable {held : Commit} {lib : Library}

/-- A commit sends definitions under names that these define. -/
theorem define_of_mem (h : held.Batch lib) {name text : String}
    (hpair : (name, text) ∈ held.fragments) :
    IsName name.toList ∧ ∃ body, text = Fragment.define name body := by
  have hfound := Bindings.find?_of_mem held.nodup_fragments hpair
  rw [find?_fragments] at hfound
  obtain ⟨entry, hentry, hbrought⟩ := List.exists_of_findSome?_eq_some hfound
  obtain ⟨template, values, ⟨w⟩⟩ := h.woven entry hentry
  exact w.define_of_mem h.registered (h.free entry hentry) (h.isName_alias hentry)
    (Bindings.mem_of_find? hbrought)

/-- The bodies that spreads stand for are those of the definitions. -/
theorem bodyOf_eq_some_iff (h : held.Batch lib) {name : String} {row : List Lexeme} :
    held.bodyOf name = some row ↔
      ∃ body, (name, Fragment.define name body) ∈ held.fragments ∧
        row = ((scanText body).indent [' ']).lexemes := by
  constructor
  · intro hrow
    -- A body is read off a definition, and every definition of a batch has a fragment's form
    obtain ⟨text, hfind, -⟩ := Option.bind_eq_some_iff.1 hrow
    have hmem := Bindings.mem_of_find? hfind
    obtain ⟨hname, body, rfl⟩ := h.define_of_mem hmem
    rw [held.bodyOf_eq hname hfind] at hrow
    exact ⟨body, hmem, (Option.some.inj hrow).symm⟩
  · rintro ⟨body, hmem, rfl⟩
    exact held.bodyOf_eq (h.define_of_mem hmem).1 (Bindings.find?_of_mem held.nodup_fragments hmem)

/-- The document of a batch is read as its parts: the selections of its entries, and behind them the
definitions that these were brought along with. -/
theorem exists_document (h : held.Batch lib)
    (hentries : ∀ entry ∈ held.entries,
      entry.Standing ∧ ∀ d ∈ entry.declarations, d.Printable) :
    ∃ o, held.Reads o ∧ held.Defines o := by
  have hprintable : ∀ d ∈ held.declarations, d.Printable := by
    intro d hd
    obtain ⟨entry, hentry, hd⟩ := List.mem_flatMap.1 hd
    exact (hentries entry hentry).2 d hd
  obtain ⟨o, hreads, hscan⟩ :=
    reads_of_standing hprintable fun entry hentry => (hentries entry hentry).1
  -- Behind the selection set stand the definitions, so reading the rest is reading them
  have hafter : o.after = (QueryWeave.scan held.definitions.flatten).lexemes :=
    congrArg Scan.lexemes hscan
  have hchars : Lexeme.charsOf o.after ++ o.trailer = held.definitions.flatten := by
    rw [hafter, show o.trailer = _ from congrArg Scan.trailer hscan]
    exact chars_scan held.definitions.flatten
  refine ⟨o, hreads, hchars.trans ?_, fun hsealed => ?_, held.nodup_fragments,
    fun name text => h.define_of_mem, fun name row => h.bodyOf_eq_some_iff⟩
  · rw [definitions, List.flatMap_def]
  · rw [hafter, tokens_definitions hsealed]

end Batch

end Commit

/-! ## §2 What entries mean -/

/-- Whether an entry means one thing in a commit, and its operation by itself the same.

Both are told apart from having no meaning at all: there are symbols that the one and the other say,
and neither says anything else. -/
def Commit.Preserves (held : Commit) (lib : Library) (compiled : Compiled) (values : JsonObject)
    (entry : Entry) : Prop :=
  ∃ symbols, (∀ other, lib.Says compiled values other ↔ other = symbols) ∧
    ∀ other, held.Says entry other ↔ other = symbols

theorem Library.Says.unique {lib : Library} {compiled : Compiled} {values : JsonObject}
    {symbols other : List Symbol} (h : lib.Says compiled values symbols)
    (h' : lib.Says compiled values other) : symbols = other := by
  obtain ⟨o, ho, hmeans⟩ := h
  obtain ⟨o', ho', hmeans'⟩ := h'
  rw [ho] at ho'
  cases ho'
  exact hmeans.unique hmeans'

theorem Commit.Batch.preserves {held : Commit} {lib : Library} (h : held.Batch lib)
    (hcomplete : held.missing? = none) {entry : Entry} (hentry : entry ∈ held.entries)
    {template : Template} {values : JsonObject} (w : Woven lib template values entry)
    (hapart : keysApart .start w.outline.selection.inner = true) :
    held.Preserves lib w.compiled values entry := by
  obtain ⟨symbols, hlib, hheld⟩ := h.says hcomplete hentry w hapart
  refine ⟨symbols, fun other => ⟨fun hother => hother.unique hlib, ?_⟩,
    fun other => ⟨fun hother => hother.unique hheld, ?_⟩⟩
  · -- A text has one meaning, so whatever else it is said to mean is this one
    rintro rfl
    exact hlib
  · rintro rfl
    exact hheld

namespace Session

/-! ## §3 Merging keeps meaning -/

/-- **Merging keeps meaning**: in every commit of every run, an entry means what its operation means
by itself.

The run may merge under other keys too, and register what it likes in between; what the entries of
this commit need is that each was merged against the one library `lib`, from a well-formed template
whose inferred declarations come from keys of documented forms. The aliases are different, and no
flat name of the library begins with one of them.

What an entry means is read from its selections, from the definitions kept by the commit and from
the variables sent. The first part says that this is what the document says: it is read as these
selections and these declarations, with one definition of each name behind them. -/
theorem merge_keeps_meaning (codes : AliasCodes) (steps : List SessionStep) (key : String)
    (number : Nat) (held : Commit) (lib : Library)
    (hcommit : (((start codes).run steps).commit key).2 = .ok (number, held))
    (hlib : lib.Registered)
    (horigin : ∀ entry ∈ held.entries, ∀ lib' template values,
      (start codes).MergedFrom steps lib' template values entry →
        lib' = lib ∧ template.WellFormed ∧ template.Keyed values)
    (hdistinct : (held.entries.map Entry.aliasName).Nodup)
    (hfree : ∀ entry ∈ held.entries, lib.Free entry.aliasName) :
    (∃ o, held.Reads o ∧ held.Defines o) ∧ ∀ entry ∈ held.entries,
      (∃ template values, (start codes).MergedFrom steps lib template values entry) ∧
      ∀ template values, (start codes).MergedFrom steps lib template values entry →
        ∃ compiled, lib.compile template values true = .ok compiled ∧
          held.Preserves lib compiled values entry := by
  have hbatch : held.Batch lib := batch_of_commit hcommit hlib
    (fun entry hentry lib' template values hfrom =>
      (horigin entry hentry lib' template values hfrom).1) hdistinct hfree
  obtain ⟨-, hcomplete⟩ := commit_inversion hcommit
  -- Some merge put each entry there, and it was one against this library
  have hmerged : ∀ entry ∈ held.entries, ∃ template values,
      (start codes).MergedFrom steps lib template values entry := by
    intro entry hentry
    obtain ⟨lib', template, values, hfrom⟩ :=
      exists_mergedFrom (mem_mergedIn_of_commit hcommit entry hentry)
    obtain rfl := (horigin entry hentry lib' template values hfrom).1
    exact ⟨template, values, hfrom⟩
  refine ⟨hbatch.exists_document fun entry hentry => ?_,
    fun entry hentry => ⟨hmerged entry hentry, fun template values hfrom => ?_⟩⟩
  · -- A well-formed template has selections that stand beside others
    obtain ⟨template, values, hfrom⟩ := hmerged entry hentry
    obtain ⟨-, hwell, hkeyed⟩ := horigin entry hentry lib template values hfrom
    obtain ⟨-, ⟨w⟩⟩ := hfrom.woven
    have halias := hbatch.isName_alias hentry
    exact ⟨w.standing halias (w.fitting hwell hkeyed), w.printable halias hwell hkeyed⟩
  · -- In a well-formed operation no response key touches a number, and so nothing is glued
    obtain ⟨-, hwell, hkeyed⟩ := horigin entry hentry lib template values hfrom
    obtain ⟨-, ⟨w⟩⟩ := hfrom.woven
    have hapart := (w.fitting hwell hkeyed).keysApart
    exact ⟨w.compiled, w.compiles, hbatch.preserves hcomplete hentry w hapart⟩

private theorem free_postText {aliasName : String}
    (h : aliasName ∈ ["merge0001", "merge0002"]) : postText.Free aliasName := by
  intro f hf name heq
  have hchars := congrArg String.toList heq
  rw [List.mem_singleton.1 hf] at hchars
  simp only [List.mem_cons, List.not_mem_nil, or_false] at h
  rcases h with rfl | rfl <;>
    simp [entryName, Fragment.flatName, flattenPath, flattenChars] at hchars

theorem merge_keeps_meaning_twoTexts :
    ∃ held, (((start ⟨1, [2]⟩).run twoTexts).commit "page").2 = .ok (0, held) ∧
      held.entries.map Entry.aliasName = ["merge0001", "merge0002"] ∧
      (∃ o, held.Reads o ∧ held.Defines o) ∧ ∀ entry ∈ held.entries,
        (∃ template values,
          (start ⟨1, [2]⟩).MergedFrom twoTexts postText template values entry) ∧
        ∀ template values, (start ⟨1, [2]⟩).MergedFrom twoTexts postText template values entry →
          ∃ compiled, postText.compile template values true = .ok compiled ∧
            held.Preserves postText compiled values entry := by
  obtain ⟨held, hcommit, haliases⟩ := exists_commit_twoTexts
  -- The hypotheses in turn: the library is built by registering, both merges use it, the aliases
  -- differ and no path begins with one of them
  have hregistered : postText.Registered := by
    have hregister : Library.empty.register "post.text" "on Post { text(size: $size) }" =
        .ok postText := by
      decide +kernel
    exact .register .empty hregister
  have horigin : ∀ entry ∈ held.entries, ∀ lib' template values,
      (start ⟨1, [2]⟩).MergedFrom twoTexts lib' template values entry →
        lib' = postText ∧ template.WellFormed ∧ template.Keyed values := by
    intro entry _ lib' template values hfrom
    obtain ⟨hlib, hwell, hkeys⟩ := mergedFrom_twoTexts hfrom
    exact ⟨hlib, hwell, fun _ _ _ => hkeys⟩
  have hdistinct : (held.entries.map Entry.aliasName).Nodup := by
    rw [haliases]
    decide
  have hfree : ∀ entry ∈ held.entries, postText.Free entry.aliasName :=
    fun entry hentry => free_postText (haliases ▸ List.mem_map_of_mem hentry)
  exact ⟨held, hcommit, haliases,
    merge_keeps_meaning _ _ _ _ _ _ hcommit hregistered horigin hdistinct hfree⟩

/-! ## §4 A key that smuggles selections in -/

def oneField : Template := ⟨.query, "query {a}"⟩

/-- A variable whose key holds selections of its own. -/
def smuggled : JsonObject := [("x!A) {1_a} #", .number (.int 1))]

/-- The operation with that variable. -/
def gluedKey : List SessionStep := [.merge .empty "page" oneField smuggled]

private theorem wellFormed_oneField : oneField.WellFormed := by
  have hrow : (scanText oneField.source).lexemes =
      [⟨[], .name, "query".toList⟩, ⟨[' '], .punctuator '{', ['{']⟩,
        ⟨[], .name, ['a']⟩, ⟨[], .punctuator '}', ['}']⟩] := by
    decide +kernel
  constructor
  · rw [hrow]
    -- The derivation follows the four tokens, from the field outwards
    have hfield : Derives .selection _ :=
      .bareField (@Derives.field ⟨[], .name, ['a']⟩ _ _ _ rfl .noArguments .directivesNil
        .noSubselection)
    have hset : Derives .selectionSet _ :=
      @Derives.selectionSet ⟨[' '], .punctuator '{', ['{']⟩ ⟨[], .punctuator '}', ['}']⟩ _ rfl
        (.selectionsCons hfield .selectionsNil) (by simp) rfl
    exact @Derives.anonymous ⟨[], .name, "query".toList⟩ _ _ _ (by decide) .noSignature
      .directivesNil hset
  · rw [hrow]
    simp [Apart]

/-- Helper: without an ellipsis every lexeme is a piece of its own. -/
private theorem pieces_of_no_dots {row : List Lexeme} (h : ∀ l ∈ row, l.kind ≠ .ellipsis) :
    pieces row = row.map .single := by
  induction row with
  | nil => exact pieces_nil
  | cons l rest ih =>
    rw [pieces_cons_single fun hdots => absurd hdots (h l List.mem_cons_self),
      ih fun m hm => h m (List.mem_cons_of_mem _ hm)]
    rfl

/-- Helper: what selections of single lexemes mean, if no variable is among them. -/
private theorem means_of_singles {body : String → Option (List Lexeme)} {values : JsonObject}
    {ds : List Declaration} {row : List Lexeme} (hpieces : pieces row = row.map .single)
    (hvariable : ∀ l ∈ row, l.isVariable = false) :
    Means body values ds row (row.map fun l => .token l.token) := by
  refine ⟨row, ?_, ?_⟩
  · rw [hpieces]
    -- Without spreads nothing is inlined, and without variables every token means itself
    clear hpieces hvariable
    induction row with
    | nil => exact .nil
    | cons l rest ih => exact .single ih
  · rw [List.map_map]
    apply List.map_congr_left
    intro l hl
    have hkind : l.token.1 ≠ .variable := by
      simpa [Lexeme.isVariable, Lexeme.token] using hvariable l hl
    rw [Token.symbol, if_neg hkind]
    rfl

private theorem compile_oneField : Library.empty.compile oneField smuggled true = .ok
    ⟨.query, none, [⟨"x", "A) {1_a} #!", none⟩], "query ($x: A) {1_a} #!) {a}", [], [], []⟩ :=
  Library.empty.compile_of_no_spreads (by decide +kernel) (by decide +kernel)

/-- Helper: what the operation says by itself. -/
private theorem says_oneField {compiled : Compiled}
    (h : compiled.operation = "query ($x: A) {1_a} #!) {a}") :
    Library.empty.Says compiled smuggled
      [.token (.other, ['1']), .token (.name, ['_', 'a']), .token (.punctuator ':', [':']),
        .token (.name, ['_', 'a'])] := by
  have houtline : (Outline.ofText? "query ($x: A) {1_a} #!) {a}").map
      (fun o => writtenKeys .start o.selection.inner) =
        some [⟨[], .other, ['1']⟩, ⟨[], .name, ['_', 'a']⟩, colon, ⟨[], .name, ['_', 'a']⟩] := by
    decide +kernel
  obtain ⟨o, ho, hrow⟩ := Option.map_eq_some_iff.1 houtline
  refine ⟨o, h ▸ ho, ?_⟩
  rw [hrow]
  exact means_of_singles (pieces_of_no_dots (by decide)) (by decide)

/-- Helper: what the entry says, its alias having become part of the number. -/
private theorem says_gluedKey {held : Commit} {entry : Entry}
    (halias : entry.aliasName = "merge0001") (hselection : entry.selection = "1merge0001__a:_a\n") :
    held.Says entry
      [.token (.other, "1merge0001".toList), .token (.name, "__a".toList),
        .token (.punctuator ':', [':']), .token (.name, ['_', 'a'])] := by
  have hscan : (scanText "1merge0001__a:_a\n").lexemes =
      [⟨[], .other, "1merge0001".toList⟩, ⟨[], .name, "__a".toList⟩, colon,
        ⟨[], .name, ['_', 'a']⟩] := by
    decide +kernel
  have hread : writtenKeys .start (stripKeys "merge0001" .start
      [⟨[], .other, "1merge0001".toList⟩, ⟨[], .name, "__a".toList⟩, colon,
        ⟨[], .name, ['_', 'a']⟩]) =
      [⟨[], .other, "1merge0001".toList⟩, ⟨[], .name, "__a".toList⟩, colon,
        ⟨[], .name, ['_', 'a']⟩] := by
    decide
  -- The digit in front and the alias are one token, so there is no key to strip the alias from
  unfold Commit.Says
  rw [halias, hselection, hscan, hread]
  exact means_of_singles (pieces_of_no_dots (by decide)) (by decide)

/-- A key of no documented form can smuggle in selections in which a name touches a number; with
the alias in between, the two run into each other. -/
theorem not_preserves_gluedKey :
    ∃ held entry compiled, (((start ⟨1, []⟩).run gluedKey).commit "page").2 = .ok (0, held) ∧
      Library.empty.Registered ∧ oneField.WellFormed ∧
      held.entries.map Entry.aliasName = ["merge0001"] ∧
      (∀ e ∈ held.entries, Library.empty.Free e.aliasName) ∧ entry ∈ held.entries ∧
      (start ⟨1, []⟩).MergedFrom gluedKey .empty oneField smuggled entry ∧
      Library.empty.compile oneField smuggled true = .ok compiled ∧
      ¬ held.Preserves .empty compiled smuggled entry := by
  have hrun : (((start ⟨1, []⟩).run gluedKey).commit "page").2.toOption.map
      (fun committed => (committed.1,
        committed.2.entries.map fun entry => (entry.aliasName, entry.selection))) =
        some (0, [("merge0001", "1merge0001__a:_a\n")]) := by
    simp only [gluedKey, run_cons, run_nil, step, merge, Entry.weave, compile_oneField]
    decide +kernel
  obtain ⟨held, hcommit, hentries⟩ := exists_of_toOption
    (fun held => held.entries.map fun entry => (entry.aliasName, entry.selection)) hrun
  obtain ⟨entry, hsingle, hentry⟩ := List.map_eq_singleton_iff.1 hentries
  obtain ⟨halias, hselection⟩ := Prod.mk.inj hentry
  have hmem : entry ∈ held.entries := by
    rw [hsingle]
    exact List.mem_singleton_self entry
  have hfrom : (start ⟨1, []⟩).MergedFrom gluedKey .empty oneField smuggled entry := by
    obtain ⟨lib, template, values, hfrom⟩ :=
      exists_mergedFrom (mem_mergedIn_of_commit hcommit entry hmem)
    have hstep := hfrom.mem
    simp only [gluedKey, List.mem_singleton, SessionStep.merge.injEq] at hstep
    obtain ⟨rfl, -, rfl, rfl⟩ := hstep
    exact hfrom
  obtain ⟨-, ⟨w⟩⟩ := hfrom.woven
  refine ⟨held, entry, w.compiled, hcommit, .empty, wellFormed_oneField, ?_, ?_, hmem, hfrom,
    w.compiles, ?_⟩
  · simp [hsingle, halias]
  · exact fun e _ f hf => absurd hf (by simp [Library.empty])
  · -- The operation says a number and a name, the entry one number with the alias in it
    rintro ⟨symbols, hlib, hheld⟩
    have hoperation : w.compiled.operation = "query ($x: A) {1_a} #!) {a}" :=
      congrArg Compiled.operation (Except.ok.inj (w.compiles.symm.trans compile_oneField))
    have hsame := ((hlib _).1 (says_oneField hoperation)).trans
      ((hheld _).1 (says_gluedKey halias hselection)).symm
    simp at hsame

end Session

end QueryWeave
