import QueryWeave.Proofs.Batch.Selection
import QueryWeave.Proofs.Batch.Woven
import QueryWeave.Proofs.Operation.Outline

/-!
# The Selections of an Entry

The text that an entry puts into a document, read again: the aliased selections of its operation,
a gap behind them, and a line feed at the end. All its lexemes are whole, so that nothing it is
put in front of runs into it.

- `Woven.selections`: what the selections of an entry are read as.
-/

namespace QueryWeave

/-! ## §1 Operations -/

/-- The selections of an operation are spelled, and the gap in front of their closing brace is what
is left behind them. -/
theorem Outline.spells_selection {source : String} {o : Outline}
    (h : Outline.ofText? source = some o) :
    IsGap o.selection.closer.gap ∧
      ∃ following, following ≠ [] ∧ Lexeme.Spells o.selection.inner following := by
  obtain ⟨hscan, -⟩ := Outline.parted_of_ofScan? h
  have hspells := (spells_scan source.toList).1
  have hsource : QueryWeave.scan source.toList = o.scan := hscan.symm
  rw [hsource] at hspells
  rw [o.lexemes_eq] at hspells
  obtain ⟨-, hbehind⟩ := Lexeme.spells_append.1 hspells
  obtain ⟨hinner, hgap, ⟨c, more, htext, -⟩, -⟩ := Lexeme.spells_append.1 hbehind
  exact ⟨hgap, _, by simp [htext], hinner⟩

/-- The text between the braces is read as it stands there. -/
theorem Outline.scan_selectionChars {source : String} {o : Outline}
    (h : Outline.ofText? source = some o) :
    QueryWeave.scan o.selectionChars = ⟨o.selection.inner, o.selection.closer.gap⟩ := by
  obtain ⟨hgap, following, hmore, hspells⟩ := Outline.spells_selection h
  have hseparates := Lexeme.separates_of_gapState hgap.isSome
  exact scan_charsOf (hspells.before hmore hseparates) hgap.isSome

/-- Helper: a row whose first gap is changed is spelled as before. -/
private theorem spells_of_indent {gap : List Char} {s : Scan} {following : List Char}
    (hs : Lexeme.Spells s.lexemes s.trailer)
    (h : Lexeme.Spells (s.indent gap).lexemes following) : Lexeme.Spells s.lexemes following := by
  obtain ⟨row, trailer⟩ := s
  cases row with
  | nil => trivial
  | cons l rest =>
    obtain ⟨-, hcuts, hrest⟩ := h
    exact ⟨hs.1, hcuts, hrest⟩

/-- Helper: what is left behind a row does not change with a gap in front of it. -/
private theorem isGap_of_indent {gap : List Char} (hgap : IsGap gap) {s : Scan}
    (h : IsGap (s.indent gap).trailer) : IsGap s.trailer := by
  obtain ⟨row, trailer⟩ := s
  cases row with
  | nil =>
    have happend : gapState false (gap ++ trailer) = some false := h
    rw [gapState_append, hgap] at happend
    exact happend
  | cons l rest => exact h

theorem kinds_indent (gap : List Char) (s : Scan) :
    (s.indent gap).lexemes.map Lexeme.kind = s.lexemes.map Lexeme.kind := by
  obtain ⟨row, trailer⟩ := s
  cases row <;> rfl

/-- Helper: what stands in front of a row does not tell its gaps apart. -/
private theorem keysApart_congr {p q : SelectionPoint} (h : p.Agrees q)
    (hbefore : p.before.map Lexeme.kind = q.before.map Lexeme.kind) (row : List Lexeme) :
    keysApart p row = keysApart q row := by
  induction row generalizing p q with
  | nil => rfl
  | cons l rest ih =>
    have hkey : p.isKey l = q.isKey l := by
      rw [SelectionPoint.isKey, SelectionPoint.isKey, h.beginsSelection]
    have hnumber : (p.before.any fun b => b.kind = .other) =
        q.before.any fun b => b.kind = .other := by
      cases hp : p.before <;> cases hq : q.before <;> simp_all
    rw [keysApart, keysApart, hkey, hnumber, ih (h.advance rfl) rfl]

theorem keysApart_indent (gap : List Char) (s : Scan) :
    keysApart .start (s.indent gap).lexemes = keysApart .start s.lexemes := by
  obtain ⟨row, trailer⟩ := s
  cases row with
  | nil => rfl
  | cons l rest =>
    show keysApart .start ({ l with gap := gap ++ l.gap } :: rest) = _
    have hrest := @keysApart_congr (SelectionPoint.start.advance { l with gap := gap ++ l.gap })
      (SelectionPoint.start.advance l) ((SelectionPoint.agrees_refl _).advance rfl) rfl rest
    rw [keysApart, keysApart, hrest]
    simp [SelectionPoint.start]

/-! ## §2 Entries -/

/-- How the selections of an entry came about: `row` is what the operation's selections are read as
without the blanks in front, and the walk along it spelled `aliased`. -/
structure Walked (aliasName : String) (copied : List String) (o : Outline) (entry : Entry)
    (row : List Lexeme) (aliased : AliasedRow) (trailer : List Char) : Prop where
  inner : ∃ blanks left, IsGap blanks ∧
    (⟨o.selection.inner, o.selection.closer.gap⟩ : Scan) = Scan.indent blanks ⟨row, left⟩
  spells : ∃ following, following ≠ [] ∧ Lexeme.Spells row following
  aliases : aliasRow aliasName copied .start row = some aliased
  fields : aliased.fields = entry.fields
  chars : entry.selection.toList = Lexeme.charsOf aliased.row ++ trailer
  trailer : IsGap trailer
  line : entry.selection.toList.getLast? = some '\n'

/-- Helper: a line feed behind a gap leaves a gap. -/
private theorem endLine_append {front gap : List Char} (hgap : IsGap gap) :
    ∃ trailer, IsGap trailer ∧ Entry.endLine (front ++ gap) = front ++ trailer ∧
      (Entry.endLine (front ++ gap)).getLast? = some '\n' := by
  unfold Entry.endLine
  split
  · rename_i hline
    exact ⟨gap, hgap, rfl, hline⟩
  · refine ⟨gap ++ ['\n'], hgap.append rfl, ?_, ?_⟩
    · rw [List.append_assoc]
    · rw [List.getLast?_append]
      rfl

theorem Woven.walked {lib : Library} {template : Template} {values : JsonObject} {entry : Entry}
    (w : Woven lib template values entry) : ∃ row aliased trailer,
      Walked entry.aliasName w.fragments.copied w.outline entry row aliased trailer := by
  obtain ⟨hgap, following, hmore, hspells⟩ := Outline.spells_selection w.outlines
  have hblanks : IsGap (w.outline.selectionChars.takeWhile Text.isBlank) :=
    isGap_of_blank fun c hc =>
      List.all_eq_true.1 (List.all_takeWhile (p := Text.isBlank)) c hc
  -- The blanks in front are dropped before the walk, and cost the first gap only
  have htrimmed := scan_dropBlank w.outline.selectionChars
  rw [Outline.scan_selectionChars w.outlines] at htrimmed
  obtain ⟨aliased, haliased, heq⟩ := Option.map_eq_some_iff.1 w.aliases
  obtain ⟨hselection, hfields⟩ := Prod.mk.inj heq
  have hscanned := spells_scan (Text.dropBlank w.outline.selectionChars)
  generalize scan (Text.dropBlank w.outline.selectionChars) = s
    at htrimmed haliased hselection hscanned
  have hlexemes := congrArg Scan.lexemes htrimmed
  have hleft : IsGap s.trailer := by
    apply isGap_of_indent hblanks
    rw [← htrimmed]
    exact hgap
  have hrow : Lexeme.Spells s.lexemes following := by
    apply @spells_of_indent (w.outline.selectionChars.takeWhile Text.isBlank) _ _ hscanned.1
    rw [← hlexemes]
    exact hspells
  -- The line feed behind what the walk spells ends the last gap
  obtain ⟨trailer, htrailer, hline, hlast⟩ := @endLine_append (Lexeme.charsOf aliased.row) _ hleft
  have hchars : entry.selection.toList =
      Entry.endLine (Lexeme.charsOf aliased.row ++ s.trailer) := by
    rw [w.selection_eq, ← hselection, String.toList_ofList]
  exact ⟨s.lexemes, aliased, trailer, {
    inner := ⟨_, s.trailer, hblanks, htrimmed⟩
    spells := ⟨following, hmore, hrow⟩
    aliases := haliased
    fields := hfields
    chars := hchars.trans hline
    trailer := htrailer
    line := hchars ▸ hlast }⟩

/-- What the selections of an entry are read as: `row` is what they were made from, up to the blanks
in front. That they are read so takes more than `Walked`: no response key may touch a number, since
the alias would become part of it. -/
structure Selections (aliasName : String) (copied : List String) (o : Outline) (entry : Entry)
    (row : List Lexeme) (aliased : AliasedRow) (trailer : List Char) : Prop where
  inner : ∃ blanks left, IsGap blanks ∧
    (⟨o.selection.inner, o.selection.closer.gap⟩ : Scan) = Scan.indent blanks ⟨row, left⟩
  balanced : Balanced row
  aliases : aliasRow aliasName copied .start row = some aliased
  fields : aliased.fields = entry.fields
  scans : scanText entry.selection = ⟨aliased.row, trailer⟩
  trailer : IsGap trailer
  whole : ∀ l ∈ aliased.row, l.Whole
  line : entry.selection.toList.getLast? = some '\n'

theorem Woven.selections {lib : Library} {template : Template} {values : JsonObject}
    {entry : Entry} (w : Woven lib template values entry)
    (halias : IsName entry.aliasName.toList)
    (hapart : keysApart .start w.outline.selection.inner = true) :
    ∃ row aliased trailer,
      Selections entry.aliasName w.fragments.copied w.outline entry row aliased trailer := by
  obtain ⟨row, aliased, trailer, h⟩ := w.walked
  obtain ⟨blanks, left, hblanks, htrimmed⟩ := h.inner
  obtain ⟨following, hmore, hrow⟩ := h.spells
  have hlexemes := congrArg Scan.lexemes htrimmed
  have hbalanced := (Outline.parted_of_ofScan? w.outlines).2.selection.inner
  have hrowApart : keysApart .start row = true := by
    rw [← keysApart_indent blanks ⟨row, left⟩, ← hlexemes]
    exact hapart
  -- What the walk spells is read back
  have hspelled := spells_aliasRow halias h.aliases hrow hrowApart
  refine ⟨row, aliased, trailer, h.inner, ?_, h.aliases, h.fields, ?_, h.trailer,
    hspelled.whole hmore, h.line⟩
  · apply hbalanced.congr
    rw [show w.outline.selection.inner = _ from hlexemes, kinds_indent]
  · rw [scanText, h.chars]
    exact scan_charsOf (hspelled.before hmore (Lexeme.separates_of_gapState h.trailer.isSome))
      h.trailer.isSome

end QueryWeave
