import QueryWeave.Proofs.Batch.Origins
import QueryWeave.Proofs.Lexeme.Sealed

/-!
# Committed Documents

What the document of a commit is read as. Its text is put together from the declarations and the
selections of all entries, with a keyword, brackets and line feeds in between. The outline of that
text finds the parts again: the declarations as they were printed, the selections one behind the
other, and at the top level the keys of all entries.

- `Woven.standing`: selections that can stand beside others.
- `Commit.scan_opening`: the text in front of the selections.
- `Session.document_reads_parts`: the outline of a document.
-/

namespace QueryWeave

/-! ## §1 The selections of an entry -/

/-- Selections that can stand beside those of other entries: nothing behind them changes how they
are read, they close the brackets that they open, and the walk behind them stands where it began.
This is all that `Reads` needs to know of an entry. -/
structure Entry.Standing (entry : Entry) : Prop where
  sealed : Sealed entry.selection.toList
  balanced : Balanced (scanText entry.selection).lexemes
  keys : topKeys .start (scanText entry.selection).lexemes =
    entry.fields.map ResponseField.aliased
  plain : plainTop .start (scanText entry.selection).lexemes = true
  behind : (SelectionPoint.start.behind (scanText entry.selection).lexemes).Agrees .start

theorem Woven.standing {lib : Library} {template : Template} {values : JsonObject} {entry : Entry}
    (w : Woven lib template values entry) (halias : IsName entry.aliasName.toList)
    (hfitting : w.outline.Fitting) : entry.Standing := by
  obtain ⟨row, aliased, trailer, h⟩ := w.selections halias hfitting.keysApart
  have hscan := h.scans
  have hclear : SelectionPoint.start.Clear := fun _ => rfl
  obtain ⟨hkeys, hplain, hagrees⟩ := walk_aliasRow hclear (SelectionPoint.agrees_refl _) h.aliases
  -- The last lexeme announces nothing, and so the next entry begins with a key
  have hlast : ∀ l ∈ row.getLast?, l.announces = false := by
    intro l hl
    -- The row differs from what stands between the braces by its first gap alone
    obtain ⟨blanks, left, -, hinner⟩ := h.inner
    have hkinds := kinds_indent blanks ⟨row, left⟩
    rw [← hinner] at hkinds
    have hends := congrArg List.getLast? hkinds
    rw [List.getLast?_map, List.getLast?_map, Option.mem_def.1 hl] at hends
    obtain ⟨m, hm, hkind⟩ := Option.map_eq_some_iff.1 hends
    have hannounces := hfitting.last m hm
    simpa only [Lexeme.announces, Lexeme.isMark, hkind] using hannounces
  have hbehind : (SelectionPoint.start.behind row).Agrees .start := by
    apply behind_agrees_start h.balanced
    intro l hl
    simpa [Lexeme.announces] using hlast l hl
  constructor
  · apply sealed_of_line h.line
    · show ∀ l ∈ (scanText entry.selection).lexemes, l.Whole
      rw [hscan]
      exact h.whole
    · show IsGap (scanText entry.selection).trailer
      rw [hscan]
      exact h.trailer
  · rw [hscan]
    exact balanced_aliasRow h.aliases h.balanced
  · rw [hscan, hkeys, h.fields]
  · rw [hscan]
    exact hplain
  · rw [hscan]
    exact hagrees.symm.trans hbehind

/-- The rows of the selections of several entries. -/
def Entry.rows (entries : List Entry) : List Lexeme :=
  entries.flatMap fun entry => (scanText entry.selection).lexemes

/-- Selections one behind the other: the keys of all of them are found. -/
theorem walk_rows {entries : List Entry} (h : ∀ entry ∈ entries, entry.Standing)
    {p : SelectionPoint} (hp : p.Agrees .start) :
    topKeys p (Entry.rows entries) =
        entries.flatMap (fun entry => entry.fields.map ResponseField.aliased) ∧
      plainTop p (Entry.rows entries) = true := by
  induction entries generalizing p with
  | nil => exact ⟨rfl, rfl⟩
  | cons entry rest ih =>
    have hentry := h entry List.mem_cons_self
    -- Behind each entry the walk stands where it began
    have hbehind : (p.behind (scanText entry.selection).lexemes).Agrees .start :=
      (hp.behind _).trans hentry.behind
    obtain ⟨hkeys, hplain⟩ := ih (fun e he => h e (List.mem_cons_of_mem _ he)) hbehind
    unfold Entry.rows at hkeys hplain ⊢
    rw [List.flatMap_cons, List.flatMap_cons, topKeys_append, plainTop_append, topKeys_congr hp,
      plainTop_congr hp, hentry.keys, hentry.plain, hkeys, hplain]
    exact ⟨rfl, rfl⟩

theorem balanced_rows {entries : List Entry} (h : ∀ entry ∈ entries, entry.Standing) :
    Balanced (Entry.rows entries) := by
  rw [Entry.rows, List.flatMap_def]
  apply balanced_flatten
  intro row hrow
  obtain ⟨entry, hentry, rfl⟩ := List.mem_map.1 hrow
  exact (h entry hentry).balanced

/-! ## §2 The text in front of the selections -/

def queryKeyword : Lexeme := ⟨[], .name, "query".toList⟩

def openingBrace : Lexeme := ⟨[' '], .punctuator '{', ['{']⟩

namespace Commit

/-- What the signature of a document says. A batch without declarations has no signature. Otherwise
it has one, in which its declarations are read, one after the other. -/
structure Signed (held : Commit) (signature : Option Enclosed) : Prop where
  closed : ∀ e ∈ signature, e.Closed '('
  absent : held.declarations = [] → signature = none
  /-- The signature holds the declarations, and is no request for inferred ones. -/
  present : held.declarations ≠ [] → ∃ e, signature = some e ∧
    e.inner.head?.any Lexeme.isVariable = true ∧ Declaration.readList e.inner = held.declarations

theorem scan_opening (held : Commit) (hprintable : ∀ d ∈ held.declarations, d.Printable) :
    ∃ signature, held.Signed signature ∧ ∀ behind,
      scan (held.opening.toList ++ behind) =
        ⟨queryKeyword :: (signature.map Enclosed.row).getD [] ++
          openingBrace :: (scan ('\n' :: behind)).lexemes, (scan ('\n' :: behind)).trailer⟩ := by
  have hkeyword : ReadBack [queryKeyword] :=
    readBack_singleton isGap_nil (IsName.whole ⟨'q', "uery".toList, rfl, by decide, by decide⟩ rfl)
  have hbrace : openingBrace.Whole := whole_mark (by decide)
  have hblank : IsGap [' '] := rfl
  by_cases hnil : held.declarations = []
  · -- The keyword, and the brace behind it
    refine ⟨none, ⟨by simp, fun _ => rfl, fun hsome => absurd hnil hsome⟩, fun behind => ?_⟩
    have hspells : Lexeme.Spells ([queryKeyword] ++ [openingBrace]) ('\n' :: behind) :=
      hkeyword.closed hblank (by decide) hbrace _
    have htext : held.opening.toList ++ behind =
        Lexeme.charsOf ([queryKeyword] ++ [openingBrace]) ++ '\n' :: behind := by
      simp [opening, hnil, queryKeyword, openingBrace]
    rw [htext, scan_of_spells hspells]
    rfl
  · -- The keyword, the printed declarations in parentheses, and the brace
    obtain ⟨row, hrow⟩ := exists_printed hnil hprintable isGap_nil
    refine ⟨some ⟨⟨[' '], .punctuator '(', ['(']⟩, row, ⟨[], .punctuator ')', [')']⟩⟩,
      ⟨?_, fun habsent => absurd habsent hnil, fun _ => ⟨_, rfl, hrow.head, ?_⟩⟩, fun behind => ?_⟩
    · rintro e ⟨⟩
      exact ⟨rfl, hrow.orderly.balanced, rfl⟩
    · have hreads := hrow.reads [] rfl
      simpa [Declaration.readList] using hreads
    · have hspells : Lexeme.Spells ([] ++ [openingBrace]) ('\n' :: behind) :=
        readBack_nil.closed hblank (by decide) hbrace _
      have htext : held.opening.toList ++ behind =
          Lexeme.charsOf [queryKeyword] ++ ([' '] ++ '(' ::
            ((Declaration.listText held.declarations).toList ++
              ')' :: (Lexeme.charsOf ([] ++ [openingBrace]) ++ '\n' :: behind))) := by
        simp [opening, hnil, queryKeyword, openingBrace]
      rw [htext, scan_signature hkeyword hrow hblank, scan_of_spells hspells]
      simp [signatureOf, Enclosed.row]

/-! ## §3 The outline of a document

A document is opening, selections and definitions. The outline of it is found from the front: the
keyword, a signature if there is one, and then the brace, which is the first in any case, because a
signature has been cut off as a whole. -/

/-- What a document is read as: one operation, with the declarations of all entries in its signature
and the selections of all entries between its braces. Reading is done by the outline that
compilation uses, so a document is held to what the program itself makes of such a text. -/
structure Reads (held : Commit) (o : Outline) : Prop where
  outlines : Outline.ofText? held.document = some o
  absent : held.declarations = [] → o.signatureKind = .absent
  /-- The signature gives back the declarations of all entries, in merge order. -/
  explicit : held.declarations ≠ [] → o.signatureKind = .explicit ∧
    ∃ e, o.signature = some e ∧ Declaration.readList e.inner = held.declarations
  /-- Between the braces stand the selections of all entries, in merge order. -/
  tokens : o.selection.inner.map Lexeme.token = held.entries.flatMap fun entry =>
    (scanText entry.selection).lexemes.map Lexeme.token
  /-- The walk along selections finds the fields of all entries, in merge order. -/
  keys : ∀ aliasName copied,
    (aliasSelections aliasName copied o.selectionChars).map
        (fun aliased => aliased.2.map ResponseField.expected) =
      some (held.entries.flatMap fun entry => entry.fields.map ResponseField.aliased)

/-- The selections of all entries, behind a line feed. -/
def selections (held : Commit) : List (List Char) :=
  ['\n'] :: held.entries.map fun entry => entry.selection.toList

theorem sealed_selections {held : Commit} (h : ∀ entry ∈ held.entries, entry.Standing) :
    ∀ text ∈ held.selections, Sealed text := by
  intro text htext
  rcases List.mem_cons.1 htext with rfl | htext
  · exact sealed_of_isGap rfl
  · obtain ⟨entry, hentry, rfl⟩ := List.mem_map.1 htext
    exact (h entry hentry).sealed

theorem tokens_selections {held : Commit} (h : ∀ entry ∈ held.entries, entry.Standing) :
    (QueryWeave.scan held.selections.flatten).lexemes.map Lexeme.token =
      (Entry.rows held.entries).map Lexeme.token := by
  have hline : IsGap ['\n'] := rfl
  rw [tokens_flatten (sealed_selections h), selections, List.flatMap_cons, List.flatMap_map,
    scan_of_gapState hline.isSome, Entry.rows, List.map_flatMap]
  rfl

/-- The definitions of all fragments, each behind a line feed. -/
def definitions (held : Commit) : List (List Char) :=
  held.fragments.map fun f => '\n' :: f.2.toList

/-- The document, cut behind the opening and behind the selections. -/
theorem document_eq (held : Commit) :
    held.document.toList =
      held.opening.toList ++ (held.entries.map fun entry => entry.selection.toList).flatten ++
        (' ' :: '}' :: held.definitions.flatten) := by
  simp [document, definitions, String.toList_join, List.flatMap_def, Function.comp_def]

theorem scan_closing (behind : List Char) :
    QueryWeave.scan (' ' :: '}' :: behind) =
      ⟨⟨[' '], .punctuator '}', ['}']⟩ :: (QueryWeave.scan behind).lexemes,
        (QueryWeave.scan behind).trailer⟩ := by
  have hblank : IsGap [' '] := rfl
  have hspells : Lexeme.Spells ([] ++ [⟨[' '], .punctuator '}', ['}']⟩]) behind :=
    readBack_nil.closed hblank (by decide) (whole_mark (by decide)) _
  exact scan_of_spells hspells

/-- The outline that a document has. -/
def outlineOf (signature : Option Enclosed) (inner : List Lexeme) (closer : Lexeme)
    (behind : Scan) : Outline where
  lead := [queryKeyword]
  name := none
  signature
  middle := []
  selection := ⟨openingBrace, inner, closer⟩
  after := behind.lexemes
  trailer := behind.trailer

theorem ofScan?_outlineOf {signature : Option Enclosed} {inner : List Lexeme} {closer : Lexeme}
    (hsignature : ∀ e ∈ signature, e.Closed '(') (hinner : Balanced inner)
    (hcloser : closer.closes = true) (behind : Scan) :
    Outline.ofScan? (outlineOf signature inner closer behind).scan =
      some (outlineOf signature inner closer behind) := by
  apply Outline.ofScan?_of_parted
  · exact ⟨hsignature, by simp [outlineOf], ⟨rfl, hinner, hcloser⟩⟩
  · -- What follows the keyword is a bracket, and no name
    have hkeyword : queryKeyword.isKeyword = true := by decide
    cases signature with
    | none =>
      simp [outlineOf, Outline.signatureRow, Enclosed.row, cutLead, hkeyword, openingBrace,
        Lexeme.isName]
    | some e =>
      have hopener := Lexeme.isMark_iff.1 (hsignature e rfl).opener
      simp [outlineOf, Outline.signatureRow, Enclosed.row, cutLead, hkeyword, Lexeme.isName,
        hopener]
  · exact fun _ => rfl

/-- A signature that begins with a variable is written out. -/
theorem signatureKind_eq {o : Outline} {e : Enclosed} (h : o.signature = some e)
    (hvariable : e.inner.head?.any Lexeme.isVariable = true) : o.signatureKind = .explicit := by
  rw [Outline.signatureKind, h]
  dsimp only
  split
  · rename_i sign name hinner
    have hkind : sign.kind = .variable := by
      rw [hinner] at hvariable
      exact Lexeme.isVariable_iff.1 hvariable
    simp [Lexeme.isMark, hkind]
  · rfl

/-- The parts of a document are found in it, and behind them the definitions are scanned. The
selections of the entries are put together first, then the signature is put in front; each step only
needs that what is there stands by itself. -/
theorem reads_of_standing {held : Commit} (hprintable : ∀ d ∈ held.declarations, d.Printable)
    (hstanding : ∀ entry ∈ held.entries, entry.Standing) :
    ∃ o, held.Reads o ∧
      (⟨o.after, o.trailer⟩ : Scan) = QueryWeave.scan held.definitions.flatten := by
  -- The text is scanned from its front: the opening, the selections, and what closes them
  obtain ⟨signature, hsigned, hopening⟩ := held.scan_opening hprintable
  have htokens := tokens_selections hstanding
  have hsealed := Sealed.flatten (sealed_selections hstanding)
  -- The selections are balanced together, since their tokens are those of balanced rows
  have hbalanced : Balanced (QueryWeave.scan held.selections.flatten).lexemes := by
    apply (balanced_rows hstanding).congr
    have hkinds := congrArg (List.map Prod.fst) htokens
    simpa [Lexeme.token, Function.comp_def] using hkinds.symm
  generalize hbody : QueryWeave.scan held.selections.flatten = body at *
  -- The document is the opening, the selections behind a line feed, and the rest
  have hscan : scanText held.document = (outlineOf signature body.lexemes
      ⟨body.trailer ++ [' '], .punctuator '}', ['}']⟩
      (QueryWeave.scan held.definitions.flatten)).scan := by
    have hbehind : '\n' :: ((held.entries.map fun entry => entry.selection.toList).flatten ++
        (' ' :: '}' :: held.definitions.flatten)) =
          held.selections.flatten ++ (' ' :: '}' :: held.definitions.flatten) := by
      simp [selections]
    rw [scanText, document_eq, List.append_assoc, hopening, hbehind, hsealed, hbody, scan_closing]
    simp [outlineOf, Outline.scan, Outline.signatureRow, Enclosed.row, Scan.append, Scan.indent]
  have houtline := ofScan?_outlineOf hsigned.closed hbalanced
    (show (⟨body.trailer ++ [' '], .punctuator '}', ['}']⟩ : Lexeme).closes = true from rfl)
    (QueryWeave.scan held.definitions.flatten)
  rw [← hscan] at houtline
  refine ⟨_, ⟨houtline, fun hnil => ?_, fun hsome => ?_, ?_, fun aliasName copied => ?_⟩, rfl⟩
  · simp [Outline.signatureKind, outlineOf, hsigned.absent hnil]
  · obtain ⟨e, hsignature, hvariable, hreads⟩ := hsigned.present hsome
    exact ⟨signatureKind_eq hsignature hvariable, e, hsignature, hreads⟩
  · show body.lexemes.map Lexeme.token = _
    rw [htokens, Entry.rows, List.map_flatMap]
  · -- The walk looks at tokens only, and finds the keys of every entry in turn
    obtain ⟨hkeys, hplain⟩ := walk_rows hstanding (SelectionPoint.agrees_refl .start)
    obtain ⟨hkeysBody, hplainBody⟩ := walk_of_tokens (SelectionPoint.agrees_refl .start) htokens
    have hclear : SelectionPoint.start.Clear := fun _ => rfl
    obtain ⟨aliased, haliased, hexpected⟩ :=
      @aliasRow_of_plainTop aliasName copied .start hclear body.lexemes (hplainBody.trans hplain)
    unfold aliasSelections
    rw [Outline.scan_selectionChars houtline, Option.map_map, ← hkeys, ← hkeysBody, ← hexpected]
    exact congrArg (Option.map _) haliased

end Commit

/-! ## §4 Documents of a run -/

theorem Declaration.Printable.toEntry {d : Declaration} (h : d.Printable) {aliasName : String}
    (halias : IsName aliasName.toList) : (d.toEntry aliasName).Printable :=
  ⟨isName_entryVariable halias h.name.all, h.type, h.default⟩

/-- The declarations of an entry that comes from a well-formed template. -/
theorem Woven.printable {lib : Library} {template : Template} {values : JsonObject} {entry : Entry}
    (w : Woven lib template values entry) (halias : IsName entry.aliasName.toList)
    (hwell : template.WellFormed) (hkeyed : template.Keyed values) :
    ∀ d ∈ entry.declarations, d.Printable := by
  obtain ⟨c⟩ := Library.compilation_of_compile w.compiles
  have hprintable := Outline.printable_declare hwell c.outlines (hkeyed c.outline c.outlines)
  rw [w.declarations_eq, c.declarations_eq]
  intro d hd
  obtain ⟨own, hown, rfl⟩ := List.mem_map.1 hd
  exact (hprintable own hown).toEntry halias

namespace Session

/-- **The document of a commit is what its parts say**, if its entries were merged from well-formed
templates and variables with documented keys, under different aliases. The outline of the text is
found by the same scanner that reads templates, and it gives back the declarations, the selections
and the keys in merge order. -/
theorem document_reads_parts (codes : AliasCodes) (steps : List SessionStep) (key : String)
    (number : Nat) (held : Commit)
    (hcommit : (((start codes).run steps).commit key).2 = .ok (number, held))
    (horigin : ∀ entry ∈ held.entries, ∀ lib template values,
      (start codes).MergedFrom steps lib template values entry →
        template.WellFormed ∧ ∀ pair ∈ values, DocumentedKey pair.1)
    (hdistinct : (held.entries.map Entry.aliasName).Nodup) :
    (∃ o, held.Reads o) ∧
      held.entries.Pairwise fun first second => ∀ field ∈ first.fields, ∀ other ∈ second.fields,
        field.aliased ≠ other.aliased := by
  have hmerged := mem_mergedIn_of_commit hcommit
  have hentry : ∀ entry ∈ held.entries,
      entry.Standing ∧ ∀ d ∈ entry.declarations, d.Printable := by
    intro entry hentry
    obtain ⟨lib, template, values, hfrom⟩ := exists_mergedFrom (hmerged entry hentry)
    obtain ⟨hwell, hkeys⟩ := horigin entry hentry lib template values hfrom
    -- Such an entry can stand beside others, and its declarations can be printed
    obtain ⟨⟨code, halias⟩, ⟨w⟩⟩ := hfrom.woven
    have hname : IsName entry.aliasName.toList := halias ▸ isName_aliasOfCode code
    have hkeyed : template.Keyed values := fun _ _ _ => hkeys
    exact ⟨w.standing hname (w.fitting hwell hkeyed), w.printable hname hwell hkeyed⟩
  have hprintable : ∀ d ∈ held.declarations, d.Printable := by
    intro d hd
    obtain ⟨entry, hmem, hd⟩ := List.mem_flatMap.1 hd
    exact (hentry entry hmem).2 d hd
  obtain ⟨o, hreads, -⟩ :=
    Commit.reads_of_standing hprintable fun entry hmem => (hentry entry hmem).1
  exact ⟨⟨o, hreads⟩, pairwise_aliased_ne hmerged hdistinct⟩

theorem document_reads_parts_twoTexts :
    ∃ held, (((start ⟨1, [2]⟩).run twoTexts).commit "page").2 = .ok (0, held) ∧
      held.entries.map Entry.aliasName = ["merge0001", "merge0002"] ∧ (∃ o, held.Reads o) ∧
      held.entries.Pairwise fun first second => ∀ field ∈ first.fields, ∀ other ∈ second.fields,
        field.aliased ≠ other.aliased := by
  obtain ⟨held, hcommit, haliases⟩ := exists_commit_twoTexts
  have hdistinct : (held.entries.map Entry.aliasName).Nodup := by
    rw [haliases]
    decide
  exact ⟨held, hcommit, haliases, document_reads_parts _ _ _ _ _ hcommit
    (fun _ _ _ _ _ hfrom => (mergedFrom_twoTexts hfrom).2) hdistinct⟩

end Session

end QueryWeave
