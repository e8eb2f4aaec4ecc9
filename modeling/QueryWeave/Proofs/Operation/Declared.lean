import QueryWeave.Proofs.Operation.Compile
import QueryWeave.Proofs.Operation.Landmarks
import QueryWeave.Proofs.Variable.Inference

/-!
# Operations With Their Signatures Filled In

What a well-formed operation is read as once its signature is filled in and its spreads are
resolved. New signatures are printed from declarations that can be printed, and stand where they
touch nothing; and so the row that results is orderly again, as far as its selections need it.

- `scan_signature`: a signature put into a text.
- `Outline.fits_declare`: operations with their signatures filled in.
- `Library.Compilation.fitting`: compiled operations.
-/

namespace QueryWeave

/-! ## §1 Neighbours -/

/-- Whether a lexeme may follow another in an operation. -/
def Fits (l next : Lexeme) : Prop :=
  Ends l next ∧ Apart l next

/-- A lexeme that any other may follow. -/
def Lexeme.Calm (l : Lexeme) : Prop :=
  l.announces = false ∧ l.kind ≠ .other

theorem Lexeme.Calm.fits {l : Lexeme} (h : l.Calm) (next : Lexeme) : Fits l next :=
  ⟨fun hannounces => absurd hannounces (by simp [h.1]), fun hother => absurd hother h.2⟩

theorem Lexeme.calm_of_isName {l : Lexeme} (h : l.kind = .name) : l.Calm :=
  ⟨(plain_of_isName h).2.2, by simp [h]⟩

/-- Any lexeme may be followed by a bracket that opens. -/
theorem fits_opener (l : Lexeme) (gap : List Char) : Fits l ⟨gap, .punctuator '(', ['(']⟩ :=
  ⟨fun _ => rfl, fun _ hname => by cases hname⟩

theorem isChain_fits {row : List Lexeme} (hends : row.IsChain Ends) (hapart : row.IsChain Apart) :
    row.IsChain Fits := by
  induction row with
  | nil => exact .nil
  | cons l rest ih =>
    rw [List.isChain_cons] at hends hapart ⊢
    exact ⟨fun next hnext => ⟨hends.1 next hnext, hapart.1 next hnext⟩, ih hends.2 hapart.2⟩

theorem isChain_fits_of_calm {row : List Lexeme} (h : ∀ l ∈ row, l.Calm) : row.IsChain Fits := by
  induction row with
  | nil => exact .nil
  | cons l rest ih =>
    rw [List.isChain_cons]
    exact ⟨fun next _ => (h l List.mem_cons_self).fits next,
      ih fun m hm => h m (List.mem_cons_of_mem _ hm)⟩

/-- A row may follow another that ends with a calm lexeme. -/
theorem isChain_fits_append {first second : List Lexeme} (hfirst : first.IsChain Fits)
    (hlast : ∀ l ∈ first.getLast?, l.Calm) (hsecond : second.IsChain Fits) :
    (first ++ second).IsChain Fits :=
  List.isChain_append.2 ⟨hfirst, hsecond, fun l hl next _ => (hlast l hl).fits next⟩

/-- A new gap in front of a row matters to nothing in it. -/
theorem isChain_fits_regap {row : List Lexeme} (h : row.IsChain Fits) (gap : List Char) :
    (Lexeme.regap gap row).IsChain Fits := by
  cases row with
  | nil => exact .nil
  | cons l rest =>
    rw [Lexeme.regap, List.isChain_cons]
    rw [List.isChain_cons] at h
    exact h

theorem isChain_fits_indent {s : Scan} (h : s.lexemes.IsChain Fits) (gap : List Char) :
    (s.indent gap).lexemes.IsChain Fits := by
  obtain ⟨row, trailer⟩ := s
  cases row with
  | nil => exact .nil
  | cons l rest => exact isChain_fits_regap h (gap ++ l.gap)

/-! ## §2 Signatures put into a text

A signature is put into a text, in the place of another one or where there was none. The row of the
new text is written down, and then it is shown to be what the text is scanned as. -/

/-- The lexemes of a signature around a row of declarations. -/
def signatureOf (gap : List Char) (row : List Lexeme) : List Lexeme :=
  ⟨gap, .punctuator '(', ['(']⟩ :: row ++ [⟨[], .punctuator ')', [')']⟩]

/-- A signature is read back behind what is read back, and its closing parenthesis whatever stands
behind it. -/
theorem spells_signatureOf {front row : List Lexeme} (hfront : ReadBack front) (hrow : ReadBack row)
    {gap : List Char} (hgap : IsGap gap) (behind : List Char) :
    Lexeme.Spells (front ++ signatureOf gap row) behind := by
  have hopened : ReadBack (⟨gap, .punctuator '(', ['(']⟩ :: row) :=
    ReadBack.mark rfl (by decide) hgap (whole_mark (by decide)) hrow
  have hseam : (Lexeme.charsOf (⟨gap, .punctuator '(', ['(']⟩ :: row)).head?.all
      Lexeme.separates = true := by
    simp only [Lexeme.charsOf_cons, List.append_assoc]
    exact separates_gap_append hgap rfl
  rw [signatureOf, ← List.append_assoc]
  exact (hfront.append hopened hseam).closed isGap_nil (by decide) (whole_mark (by decide)) behind

/-- A text into which a signature is put is read as what stands in front, the signature, and what
stands behind. -/
theorem scan_signature {front : List Lexeme} (hfront : ReadBack front) {ds : List Declaration}
    {row : List Lexeme} (hrow : Printed ds [] row) {gap : List Char} (hgap : IsGap gap)
    (behind : List Char) :
    scan (Lexeme.charsOf front ++ (gap ++ '(' :: ((Declaration.listText ds).toList ++
        ')' :: behind))) =
      ⟨front ++ (signatureOf gap row ++ (scan behind).lexemes), (scan behind).trailer⟩ := by
  have hprinted := hrow.chars
  have htext : Lexeme.charsOf front ++ (gap ++ '(' :: ((Declaration.listText ds).toList ++
      ')' :: behind)) = Lexeme.charsOf (front ++ signatureOf gap row) ++ behind := by
    simp [signatureOf, hprinted]
  rw [htext, scan_of_spells (spells_signatureOf hfront hrow.readBack hgap behind),
    List.append_assoc]

/-- The signature of printed declarations fits, if none of them has a default, and anything may
follow it. -/
theorem Printed.fits {ds : List Declaration} {row : List Lexeme} (h : Printed ds [] row)
    (hnone : ∀ d ∈ ds, d.defaultText = none) (gap : List Char) :
    (signatureOf gap row).IsChain Fits ∧ ∀ l ∈ (signatureOf gap row).getLast?, l.Calm := by
  have hnumbers := h.numbers hnone
  have hopener : Lexeme.Calm ⟨gap, .punctuator '(', ['(']⟩ := ⟨rfl, by simp⟩
  have hcloser : Lexeme.Calm ⟨[], .punctuator ')', [')']⟩ := ⟨rfl, by simp⟩
  -- Without numbers nothing is to be kept apart
  have hrow : row.IsChain Fits :=
    h.orderly.chain.imp_of_mem_imp fun l _ hl _ hends =>
      ⟨hends, fun hother => absurd hother (hnumbers l hl)⟩
  have hlast : ∀ l ∈ row.getLast?, l.Calm := fun l hl =>
    ⟨h.orderly.last l hl, hnumbers l (List.mem_of_getLast? hl)⟩
  refine ⟨?_, fun l hl => ?_⟩
  · rw [signatureOf, List.cons_append, List.isChain_cons]
    exact ⟨fun next _ => hopener.fits next,
      isChain_fits_append hrow hlast (isChain_fits_of_calm (by simpa using hcloser))⟩
  · rw [signatureOf, List.getLast?_concat] at hl
    cases hl
    exact hcloser

/-! ## §3 Operations with their signatures filled in -/

theorem isGap_dropLastBlank {gap : List Char} (h : IsGap gap) : IsGap (dropLastBlank gap) := by
  unfold dropLastBlank
  split
  · rename_i hlast
    obtain ⟨front, rfl⟩ := List.getLast?_eq_some_iff.1 hlast
    rw [List.dropLast_concat]
    -- Were the front open in a comment, the blank would be inside of it
    unfold IsGap at h ⊢
    rw [gapState_append] at h
    cases hstate : gapState false front with
    | none => simp [hstate] at h
    | some state => cases state <;> simp_all [gapState, isLineBreak]
  · exact h

namespace Outline

section Declare

variable {source : String} {o : Outline}

/-- Whether the keys of variables are of documented forms, as far as declarations are inferred from
them. -/
def Keyed (o : Outline) (values : JsonObject) : Prop :=
  o.signatureKind ≠ .explicit → ∀ pair ∈ values, DocumentedKey pair.1

/-- The parts of an operation are spelled. -/
theorem spells_parts (ho : ofText? source = some o) :
    (Lexeme.Spells (o.lead ++ (o.signatureRow ++ (o.middle ++ o.selection.row ++ o.after)))
      o.trailer ∧ (gapState false o.trailer).isSome) ∧
      (scanText source).lexemes =
        o.lead ++ (o.signatureRow ++ (o.middle ++ o.selection.row ++ o.after)) := by
  obtain ⟨hscan, -⟩ := parted_of_ofScan? ho
  have hspells := spells_scan source.toList
  -- The parts are cut from the scan of the source, so together they spell it
  have hsource : QueryWeave.scan source.toList = o.scan := hscan.symm
  rw [hsource] at hspells
  constructor
  · simpa [scan] using hspells
  · rw [← hscan]
    simp [scan]

/-- Declarations that are inferred from documented keys can be printed. -/
theorem printable_inferred (ho : ofText? source = some o) {values : JsonObject}
    (hkeys : ∀ pair ∈ values, DocumentedKey pair.1) :
    ∀ d ∈ (infer o.referencedVariables values).declarations,
      d.Printable ∧ d.defaultText = none := by
  apply printable_of_infer _ hkeys
  -- A name that is referenced is the name of a variable of the operation
  intro name hname
  obtain ⟨⟨hspells, -⟩, -⟩ := spells_parts ho
  obtain ⟨l, hl, rfl⟩ := List.mem_map.1 (Names.mem_distinct.1 hname)
  obtain ⟨hmem, hvariable⟩ := List.mem_filter.1 hl
  have hkind := Lexeme.isVariable_iff.1 hvariable
  have hwhole : l.Whole := by
    apply hspells.whole_of_kind l _ (by simp [hkind])
    simp [hmem]
  obtain ⟨name, htext, hisName⟩ := hwhole.isName_drop hkind
  simpa [Lexeme.variableName, htext] using hisName

/-- What stands behind the signature is read by itself. -/
theorem scan_behindSignature (ho : ofText? source = some o) :
    QueryWeave.scan o.behindSignature =
      ⟨o.middle ++ o.selection.row ++ o.after, o.trailer⟩ := by
  obtain ⟨⟨hspells, htrailer⟩, -⟩ := spells_parts ho
  obtain ⟨-, hbehind⟩ := Lexeme.spells_append.1 hspells
  exact scan_charsOf (Lexeme.spells_append.1 hbehind).2 htrailer

/-- The keyword and the name are read in front of anything that separates. -/
theorem readBack_lead (ho : ofText? source = some o) : ReadBack o.lead := by
  obtain ⟨⟨hspells, -⟩, -⟩ := spells_parts ho
  obtain ⟨hlead, -⟩ := Lexeme.spells_append.1 hspells
  apply readBack_of_spells hlead
  intro l hl
  exact hlead.whole_of_kind l hl (by simp [names_lead ho l hl])

/-- Nothing runs into what stands behind the signature. Behind the front of an operation it is an at
sign or a brace, whatever the layout. -/
theorem separates_behindSignature (ho : ofText? source = some o) (hlawful : o.Lawful) :
    o.behindSignature.head?.all Lexeme.separates = true := by
  obtain ⟨⟨hspells, -⟩, -⟩ := spells_parts ho
  obtain ⟨-, hbehind⟩ := Lexeme.spells_append.1 hspells
  have hrow := (Lexeme.spells_append.1 hbehind).2
  -- An at sign or a brace, behind a gap
  obtain ⟨first, rest, heq, hmark⟩ := hlawful.behind
  have hmark : ∃ mark, first.kind = .punctuator mark ∧ Lexeme.separates mark = true := by
    rcases hmark with hmark | hmark
    · exact ⟨_, Lexeme.isMark_iff.1 hmark, by decide⟩
    · exact ⟨_, Lexeme.isMark_iff.1 hmark, by decide⟩
  obtain ⟨mark, hkind, hseparates⟩ := hmark
  rw [heq] at hrow
  obtain ⟨c, more, htext, hshape⟩ := hrow.whole_of_kind first List.mem_cons_self (by simp [hkind])
  rw [hkind] at hshape
  obtain ⟨rfl, rfl, -⟩ := hshape
  rw [behindSignature, heq, Lexeme.charsOf_cons, List.append_assoc, List.append_assoc]
  apply separates_gap_append hrow.1
  simpa [htext] using hseparates

/-- A signature stands behind a gap. -/
theorem isGap_signature (ho : ofText? source = some o) {old : Enclosed}
    (hold : o.signature = some old) : IsGap old.opener.gap := by
  obtain ⟨⟨hspells, -⟩, -⟩ := spells_parts ho
  obtain ⟨-, hrest⟩ := Lexeme.spells_append.1 hspells
  simp only [signatureRow, hold, Option.map_some, Option.getD_some, Enclosed.row,
    List.cons_append] at hrest
  exact hrest.1

/-- What is inferred stands where the request stood. -/
theorem scan_replaceSignature (ho : ofText? source = some o) {old : Enclosed}
    (hold : o.signature = some old) {ds : List Declaration} (hsome : ds ≠ []) {row : List Lexeme}
    (hprinted : Printed ds [] row) :
    QueryWeave.scan (o.replaceSignature old ds) =
      ⟨o.lead ++ (signatureOf old.opener.gap row ++ (o.middle ++ o.selection.row ++ o.after)),
        o.trailer⟩ := by
  have htext : o.replaceSignature old ds =
      Lexeme.charsOf o.lead ++ (old.opener.gap ++ '(' :: ((Declaration.listText ds).toList ++
        ')' :: o.behindSignature)) := by
    simp [replaceSignature, signatureChars, hsome]
  rw [htext, scan_signature (readBack_lead ho) hprinted (isGap_signature ho hold),
    scan_behindSignature ho]

/-- Where nothing is inferred, the request goes with the blank in front of it. -/
theorem scan_removeSignature (ho : ofText? source = some o) (hlawful : o.Lawful) {old : Enclosed}
    (hold : o.signature = some old) :
    QueryWeave.scan (o.replaceSignature old []) =
      ⟨o.lead ++ (Scan.indent (dropLastBlank old.opener.gap)
          ⟨o.middle ++ o.selection.row ++ o.after, o.trailer⟩).lexemes,
        (Scan.indent (dropLastBlank old.opener.gap)
          ⟨o.middle ++ o.selection.row ++ o.after, o.trailer⟩).trailer⟩ := by
  have hgap := isGap_dropLastBlank (isGap_signature ho hold)
  have htext : o.replaceSignature old [] =
      Lexeme.charsOf o.lead ++ (dropLastBlank old.opener.gap ++ o.behindSignature) := by
    simp [replaceSignature, signatureChars]
  -- An at sign or a brace comes next, so neither the keyword nor the name runs on
  have hseparates : (dropLastBlank old.opener.gap ++ o.behindSignature).head?.all
      Lexeme.separates = true :=
    separates_gap_append hgap (separates_behindSignature ho hlawful)
  rw [htext, scan_of_spells (readBack_lead ho _ hseparates), scan_gap_append hgap,
    scan_behindSignature ho]

/-- A request for inferred declarations replaced by what is inferred. -/
theorem fits_replaceSignature (ho : ofText? source = some o) (hlawful : o.Lawful)
    (hfits : (scanText source).lexemes.IsChain Fits) {old : Enclosed}
    (hold : o.signature = some old) {ds : List Declaration}
    (hds : ∀ d ∈ ds, d.Printable ∧ d.defaultText = none) :
    (QueryWeave.scan (o.replaceSignature old ds)).lexemes.IsChain Fits := by
  obtain ⟨-, hrow⟩ := spells_parts ho
  have hlead : ∀ l ∈ o.lead, l.Calm := fun l hl => Lexeme.calm_of_isName (hlawful.lead l hl)
  have hleadLast : ∀ l ∈ o.lead.getLast?, l.Calm := fun l hl => hlead l (List.mem_of_getLast? hl)
  have hbehind : (o.middle ++ o.selection.row ++ o.after).IsChain Fits := by
    rw [hrow] at hfits
    exact (List.isChain_append.1 (List.isChain_append.1 hfits).2.1).2.1
  -- Either the request goes away, or printed declarations take its place; both fit behind a name
  by_cases hnil : ds = []
  · subst hnil
    rw [scan_removeSignature ho hlawful hold]
    exact isChain_fits_append (isChain_fits_of_calm hlead) hleadLast (isChain_fits_indent hbehind _)
  · obtain ⟨row, hprinted⟩ := exists_printed hnil (fun d hd => (hds d hd).1) isGap_nil
    obtain ⟨hsignature, hlast⟩ := hprinted.fits (fun d hd => (hds d hd).2) old.opener.gap
    rw [scan_replaceSignature ho hold hnil hprinted]
    exact isChain_fits_append (isChain_fits_of_calm hlead) hleadLast
      (isChain_fits_append hsignature hlast hbehind)

/-- Helper: what stands in front of the selection set of an operation without a signature, and
behind. -/
private theorem row_withoutSignature (hnone : o.signature = none) :
    o.lead ++ (o.signatureRow ++ (o.middle ++ o.selection.row ++ o.after)) =
      (o.lead ++ o.middle) ++ o.selection.opener ::
        (o.selection.inner ++ [o.selection.closer] ++ o.after) := by
  simp [signatureRow, hnone, Enclosed.row]

/-- Where nothing is inferred, nothing is put into the text. -/
theorem insertSignature_nil (ho : ofText? source = some o) :
    o.insertSignature [] = source.toList := by
  have hchars : (QueryWeave.scan source.toList).chars = source.toList := chars_scan _
  have hscan : o.scan = QueryWeave.scan source.toList := (parted_of_ofScan? ho).1
  rw [← hchars, ← hscan]
  simp [insertSignature, scan, Scan.chars, Enclosed.row]

/-- What is inferred stands in front of the selection set, with a blank between. The row is cut in
front of the opening brace, and the blanks that stood there now stand in front of the parenthesis.
-/
theorem scan_insertSignature (ho : ofText? source = some o) (hnone : o.signature = none)
    {ds : List Declaration} (hsome : ds ≠ []) {row : List Lexeme} (hprinted : Printed ds [] row) :
    QueryWeave.scan (o.insertSignature ds) =
      ⟨o.lead ++ o.middle ++ (signatureOf o.selection.opener.gap row ++
        Lexeme.regap [' '] (o.selection.row ++ o.after)), o.trailer⟩ := by
  obtain ⟨⟨hspells, htrailer⟩, -⟩ := spells_parts ho
  rw [row_withoutSignature hnone] at hspells
  obtain ⟨hfront, hopener, hcuts, hbehind⟩ := Lexeme.spells_append.1 hspells
  -- A brace follows, so that no string is left open in front of it
  have hwhole : ∀ l ∈ o.lead ++ o.middle, l.Whole := by
    obtain ⟨c, more, htext, -⟩ := hcuts
    exact hfront.whole (by simp [htext])
  have hblank : Lexeme.Spells (Lexeme.regap [' '] (o.selection.row ++ o.after)) o.trailer :=
    ⟨rfl, hcuts, hbehind⟩
  have htext : o.insertSignature ds = Lexeme.charsOf (o.lead ++ o.middle) ++
      (o.selection.opener.gap ++ '(' :: ((Declaration.listText ds).toList ++
        ')' :: (Lexeme.charsOf (Lexeme.regap [' '] (o.selection.row ++ o.after)) ++
          o.trailer))) := by
    simp [insertSignature, signatureRow, hnone, signatureChars, hsome, Lexeme.regap, Enclosed.row]
  rw [htext, scan_signature (readBack_of_spells hfront hwhole) hprinted hopener,
    scan_charsOf hblank htrailer]

/-- What is inferred put in front of the selection set. -/
theorem fits_insertSignature (ho : ofText? source = some o)
    (hfits : (scanText source).lexemes.IsChain Fits) (hnone : o.signature = none)
    {ds : List Declaration} (hds : ∀ d ∈ ds, d.Printable ∧ d.defaultText = none) :
    (QueryWeave.scan (o.insertSignature ds)).lexemes.IsChain Fits := by
  obtain ⟨-, hrow⟩ := spells_parts ho
  -- Without declarations the text is as it was
  by_cases hnil : ds = []
  · subst hnil
    rw [insertSignature_nil ho]
    exact hfits
  · rw [hrow, row_withoutSignature hnone] at hfits
    obtain ⟨row, hprinted⟩ := exists_printed hnil (fun d hd => (hds d hd).1) isGap_nil
    obtain ⟨hsignature, hlast⟩ := hprinted.fits (fun d hd => (hds d hd).2) o.selection.opener.gap
    obtain ⟨hfitsFront, hfitsBehind, -⟩ := List.isChain_append.1 hfits
    rw [scan_insertSignature ho hnone hnil hprinted]
    -- At both seams a parenthesis stands, which may stand anywhere
    refine List.isChain_append.2 ⟨hfitsFront, ?_, fun l _ next hnext => ?_⟩
    · exact isChain_fits_append hsignature hlast (isChain_fits_regap hfitsBehind _)
    · cases hnext
      exact fits_opener l _

/-- Where there is no signature and one is to be filled in, what is inferred is put into the
text. -/
theorem declare_absent (hnone : o.signature = none) (source : String)
    (values : JsonObject) :
    o.declare source values true =
      ⟨String.ofList (o.insertSignature (infer o.referencedVariables values).declarations),
        (infer o.referencedVariables values).declarations,
        (infer o.referencedVariables values).warnings⟩ := by
  simp [declare, hnone]

/-- A request is replaced by what is inferred, whether or not a missing signature would be filled
in. -/
theorem declare_autodeclare {request : Enclosed}
    (hrequest : o.signature = some request) (hkind : o.signatureKind = .autodeclare)
    (source : String) (values : JsonObject) (whenAbsent : Bool) :
    o.declare source values whenAbsent =
      ⟨String.ofList (o.replaceSignature request
          (infer o.referencedVariables values).declarations),
        (infer o.referencedVariables values).declarations,
        (infer o.referencedVariables values).warnings⟩ := by
  simp [declare, hrequest, hkind]

/-- Well-formed operations with their signatures filled in. One case for each kind of signature: one
that is written by hand is kept, a request is replaced, and a missing one is put in front of the
selection set. -/
theorem fits_declare {template : Template} (hwell : template.WellFormed)
    (ho : ofText? template.source = some o) {values : JsonObject} (hkeys : o.Keyed values) :
    (scanText (o.declare template.source values true).text).lexemes.IsChain Fits := by
  have hlawful : o.Lawful := hwell.derives.lawful ho
  have hfits := isChain_fits hwell.derives.orderly.chain hwell.apart
  unfold declare
  split
  · rename_i signature hsignature hkind
    have hprintable := printable_inferred ho (hkeys (by simp [hkind]))
    rw [scanText, String.toList_ofList]
    exact fits_replaceSignature ho hlawful hfits hsignature hprintable
  · exact hfits
  · -- Without a signature one is put in front of the selection set
    rename_i hnone
    have hkind : o.signatureKind ≠ .explicit := by simp [signatureKind, hnone]
    rw [if_pos rfl, scanText, String.toList_ofList]
    exact fits_insertSignature ho hfits hnone (printable_inferred ho (hkeys hkind))

/-- Whatever a well-formed operation declares can be printed. Its own declarations are read off the
grammar, and the inferred ones come from keys of the documented forms. -/
theorem printable_declare {template : Template} (hwell : template.WellFormed)
    (ho : ofText? template.source = some o) {values : JsonObject} (hkeys : o.Keyed values) :
    ∀ d ∈ (o.declare template.source values true).declarations, d.Printable := by
  have hlawful : o.Lawful := hwell.derives.lawful ho
  unfold declare
  split
  · rename_i hkind
    exact fun d hd => (printable_inferred ho (hkeys (by simp [hkind])) d hd).1
  · rename_i kind signature hsignature hkind
    obtain ⟨⟨hspells, -⟩, -⟩ := spells_parts ho
    have hrow : o.signatureRow = signature.opener :: (signature.inner ++ [signature.closer]) := by
      simp [signatureRow, hsignature, Enclosed.row]
    -- The definitions stand between the parentheses, in front of the closing one
    rw [hrow] at hspells
    obtain ⟨-, hbehind⟩ := Lexeme.spells_append.1 hspells
    obtain ⟨-, -, hinner⟩ := (Lexeme.spells_append.1 hbehind).1
    obtain ⟨hinner, -, ⟨c, more, htext, -⟩, -⟩ := Lexeme.spells_append.1 hinner
    exact printable_of_definitions (hlawful.definitions hsignature hkind) hinner
      (hinner.whole (by simp [htext]))
  · rename_i hnone
    have hkind : o.signatureKind ≠ .explicit := by simp [signatureKind, hnone]
    rw [if_pos rfl]
    exact fun d hd => (printable_inferred ho (hkeys hkind) d hd).1

end Declare

end Outline

/-! ## §4 Compiled operations -/

/-- Rows fit with their spreads resolved. A resolved spread begins with an ellipsis and ends with a
name, as it did before; so its neighbours fit it as they did. -/
theorem isChain_fits_respread {row : List Lexeme} (h : row.IsChain Fits) :
    (respread Spread.resolved row).IsChain Fits := by
  induction row using pieces_induction with
  | nil => simp
  | single l rest hsingle ih =>
    rw [List.isChain_cons] at h
    rw [respread_cons_single hsingle, List.isChain_cons]
    refine ⟨fun m hm => ?_, ih h.2⟩
    cases rest with
    | nil => simp at hm
    | cons next more =>
      -- The first lexeme stays in front
      obtain ⟨later, hlater⟩ := @respread_head Spread.resolved next more
      rw [hlater] at hm
      exact h.1 m hm
  | spread dots head rest hdots hhead ih =>
    have hcalm : dots.Calm := ⟨(Lexeme.plain_of_kind hdots (by simp)).2.2, by simp [hdots]⟩
    have hname : (Spread.resolved ⟨dots, head, (takeSegments rest).1⟩).Calm :=
      Lexeme.calm_of_isName rfl
    have hbehind : (takeSegments rest).2.IsChain Fits := by
      rw [List.isChain_cons, cut_behind_path] at h
      exact (List.isChain_append.1 h.2).2.1
    rw [respread_cons_spread hdots hhead, List.isChain_cons, List.isChain_cons]
    exact ⟨fun _ _ => hcalm.fits _, fun _ _ => hname.fits _, ih hbehind⟩

/-- What stands between the braces of a row that fits: nothing is announced at its end, and no name
touches a number. -/
structure Outline.Fitting (o : Outline) : Prop where
  inner : o.selection.inner.IsChain Fits
  last : ∀ l ∈ o.selection.inner.getLast?, l.announces = false

/-- The selections of a well-formed operation once it is compiled. They fit as those of the
operation do, since resolution exchanges paths for names only. -/
theorem Library.Compilation.fitting {lib : Library} {template : Template} {values : JsonObject}
    {compiled : Compiled} (c : lib.Compilation template values compiled)
    (hwell : template.WellFormed) (hkeys : c.outline.Keyed values) {o : Outline}
    (ho : Outline.ofText? compiled.operation = some o) : o.Fitting := by
  obtain ⟨hscan, hparted⟩ := Outline.parted_of_ofScan? ho
  have hfits : o.scan.lexemes.IsChain Fits := by
    rw [hscan]
    show (scanText compiled.operation).lexemes.IsChain Fits
    rw [c.scans]
    exact isChain_fits_respread (Outline.fits_declare hwell c.outlines hkeys)
  rw [o.lexemes_eq] at hfits
  obtain ⟨hinner, -, hseam⟩ := List.isChain_append.1 (List.isChain_append.1 hfits).2.1
  refine ⟨hinner, fun l hl => ?_⟩
  -- In front of the closing brace nothing is announced
  by_contra hannounces
  have hcloses := (hseam l hl o.selection.closer rfl).1 (Bool.of_not_eq_false hannounces)
  rw [hparted.selection.closer] at hcloses
  cases hcloses

end QueryWeave
