import QueryWeave.Proofs.Operation.Requested

/-!
# Requests as Shorthand

An operation that requests inferred declarations is compiled like the operation in which they are
written out by hand. The declarations printed into it are read back as they were inferred; so
whoever writes them out is given the same document, the same declarations and the same fragments, or
the same error. Where nothing is inferred, it is compiled like the operation without the signature.

- `Template.writtenOut`, `Template.unsigned`: the templates that somebody would write by hand.
- `Library.compile_congr`: compilation looks at the text with the signature filled in.
- `shorthandLaws_compile`: a request and what it stands for.
-/

namespace QueryWeave

/-! ## §1 Signatures written by hand -/

/-- A request for inferred declarations, in any layout. -/
def Enclosed.IsRequest (e : Enclosed) : Prop :=
  ∃ sign name, e.inner = [sign, name] ∧ sign.isMark '@' = true ∧ name.word = "autodeclare"

namespace Template

/-- The text in front of a signature that stands behind `lead`. -/
def before (lead : List Lexeme) (signature : Enclosed) : List Char :=
  Lexeme.charsOf lead ++ signature.opener.gap

/-- The text of a template behind its signature. -/
def behind (t : Template) (lead : List Lexeme) (signature : Enclosed) : List Char :=
  t.source.toList.drop ((before lead signature).length + (Lexeme.spanText signature.row).length)

/-- A template with declarations between parentheses in the place of its signature. The gap in front
of the parenthesis and everything behind the signature are kept. -/
def writtenOut (t : Template) (lead : List Lexeme) (signature : Enclosed)
    (ds : List Declaration) : Template :=
  { t with
    source := String.ofList (before lead signature ++
      '(' :: (Declaration.listText ds).toList ++ ')' :: t.behind lead signature) }

/-- A template without its signature, and without the blank in front of it. -/
def unsigned (t : Template) (lead : List Lexeme) (signature : Enclosed) : Template :=
  { t with
    source := String.ofList (dropLastBlank (before lead signature) ++ t.behind lead signature) }

/-- A text that is read from a keyword on is prepared as it is. -/
theorem prepare_of_lexemes {kind : OperationKind} {source : String} {keyword : Lexeme}
    {rest : List Lexeme} (h : (scanText source).lexemes = keyword :: rest)
    (hkeyword : keyword.isKeyword = true) : prepare kind source = ⟨kind, source⟩ := by
  simp [prepare, h, hkeyword]

end Template

/-- A text with something in front loses the same last blank. -/
theorem dropLastBlank_append {front gap : List Char} (hfront : front.getLast? ≠ some ' ') :
    dropLastBlank (front ++ gap) = front ++ dropLastBlank gap := by
  rcases List.eq_nil_or_concat gap with rfl | ⟨rest, c, rfl⟩
  · simp [dropLastBlank, hfront]
  · rw [List.concat_eq_append, ← List.append_assoc]
    unfold dropLastBlank
    simp only [List.getLast?_concat, List.dropLast_concat]
    split <;> simp

/-! ## §2 What compilation looks at -/

/-- A compiled operation, its warnings apart. -/
def Compiled.unwarned (c : Compiled) : Compiled :=
  { c with warnings := [] }

/-- Two operations of one kind and name are compiled alike if, with their signatures filled in, they
have the same text and the same declarations. The warnings are left out: an operation in which the
declarations are written out gives rise to none. -/
theorem Library.compile_congr (lib : Library) {template other : Template} {o written : Outline}
    (ho : Outline.ofText? template.source = some o)
    (hwritten : Outline.ofText? other.source = some written)
    (hkind : other.kind = template.kind) (hname : written.name = o.name) {values : JsonObject}
    {whenAbsent otherAbsent : Bool}
    (htext : (written.declare other.source values otherAbsent).text =
      (o.declare template.source values whenAbsent).text)
    (hdeclarations : (written.declare other.source values otherAbsent).declarations =
      (o.declare template.source values whenAbsent).declarations) :
    (lib.compile other values otherAbsent).map Compiled.unwarned =
      (lib.compile template values whenAbsent).map Compiled.unwarned := by
  unfold compile
  simp only [ho, hwritten, htext, hdeclarations, hkind, hname]
  -- From here on both compilations work on the same text
  cases hresolve : lib.resolve (o.declare template.source values whenAbsent).text with
  | error e => rfl
  | ok resolved =>
    simp only [bind, Except.bind]
    cases lib.definitions resolved.used <;> rfl

/-! ## §3 Outlines by hand

What somebody would write by hand is the source with the request replaced. Compilation makes the
same text of the request, so what is left is to find the outline of that text. -/

namespace OperationParts

variable {p : OperationParts} {template : Template} {request : Enclosed}
    {middle after : List Lexeme} {selection : Enclosed}

/-- The text of an operation is cut around its signature. -/
theorem split_signature (hrow : (scanText template.source).lexemes = p.row)
    (hsignature : p.signature = some request) :
    template.source.toList = Template.before p.lead request ++
        (Lexeme.spanText request.row ++ template.behind p.lead request) ∧
      template.behind p.lead request =
        Lexeme.charsOf (p.directives ++ p.selection.row) ++ (scanText template.source).trailer := by
  have hchars : (scanText template.source).chars = template.source.toList := chars_scan _
  have hsplit : template.source.toList =
      (Template.before p.lead request ++ Lexeme.spanText request.row) ++
        (Lexeme.charsOf (p.directives ++ p.selection.row) ++
          (scanText template.source).trailer) := by
    rw [← hchars, Scan.chars, hrow]
    simp [row, front, signatureRow, hsignature, Template.before, Enclosed.row, Lexeme.spanText]
  -- What stands behind is found by length, since the front is given as characters
  have hbehind : template.behind p.lead request =
      Lexeme.charsOf (p.directives ++ p.selection.row) ++ (scanText template.source).trailer := by
    rw [Template.behind, hsplit, ← List.length_append, List.drop_left]
  exact ⟨by rw [hbehind, ← List.append_assoc]; exact hsplit, hbehind⟩

/-- A request is found as one. -/
theorem autodeclare_outlineAt (hsignature : p.signature = some request)
    (hrequest : request.IsRequest) (trailer : List Char) :
    (p.outlineAt middle selection after trailer).signatureKind = .autodeclare := by
  obtain ⟨sign, name, hinner, hsign, hword⟩ := hrequest
  simp [Outline.signatureKind, outlineAt, hsignature, hinner, hsign, hword]

/-- What the request is replaced by is what somebody would write out. -/
theorem source_writtenOut (hrow : (scanText template.source).lexemes = p.row)
    (hsignature : p.signature = some request) (hcut : p.Cut middle selection after)
    {ds : List Declaration} (hsome : ds ≠ []) :
    (template.writtenOut p.lead request ds).source = String.ofList
      ((p.outlineAt middle selection after (scanText template.source).trailer).replaceSignature
        request ds) := by
  have hbehind := (split_signature hrow hsignature).2
  rw [hcut.eq] at hbehind
  simp [Template.writtenOut, Template.before, hbehind, Outline.replaceSignature,
    Outline.behindSignature, signatureChars, hsome, outlineAt]

/-- Where nothing is inferred, what is left is what somebody would leave. -/
theorem source_unsigned (hwell : p.WellFormed) (hrow : (scanText template.source).lexemes = p.row)
    (hsignature : p.signature = some request) (hcut : p.Cut middle selection after) :
    (template.unsigned p.lead request).source = String.ofList
      ((p.outlineAt middle selection after (scanText template.source).trailer).replaceSignature
        request []) := by
  have hbehind := (split_signature hrow hsignature).2
  have hspells := (spells_scan template.source.toList).1
  change Lexeme.Spells (scanText template.source).lexemes
    (scanText template.source).trailer at hspells
  rw [hrow, row, front, List.append_assoc, List.append_assoc] at hspells
  -- The lead ends with a word, so the blank that goes is one directly in front of the signature
  have hlead := (Lexeme.spells_append.1 hspells).1.getLast?_names hwell.names_lead
  rw [hcut.eq] at hbehind
  simp [Template.unsigned, Template.before, dropLastBlank_append hlead, hbehind,
    Outline.replaceSignature, Outline.behindSignature, signatureChars, outlineAt]

/-- Written out, the declarations are read where the request stood, as they are printed. -/
theorem exists_printed_writtenOut (hrow : (scanText template.source).lexemes = p.row)
    (ho : Outline.ofText? template.source =
      some (p.outlineAt middle selection after (scanText template.source).trailer))
    (hsignature : p.signature = some request) (hcut : p.Cut middle selection after)
    {ds : List Declaration} (hsome : ds ≠ []) (hprintable : ∀ d ∈ ds, d.Printable) :
    ∃ row gap, Printed ds [] row ∧
      (scanText (template.writtenOut p.lead request ds).source).lexemes =
        p.lead ++ (signatureOf gap row ++ (middle ++ (selection.row ++ after))) := by
  obtain ⟨row, hprinted⟩ := exists_printed hsome hprintable isGap_nil
  refine ⟨row, request.opener.gap, hprinted, ?_⟩
  rw [source_writtenOut hrow hsignature hcut hsome, scanText, String.toList_ofList,
    Outline.scan_replaceSignature ho hsignature hsome hprinted]
  simp [outlineAt]

/-- Left out, the request leaves a gap behind the lead, and the rest is read as it was. -/
theorem scan_unsigned (hwell : p.WellFormed) (hrow : (scanText template.source).lexemes = p.row)
    (ho : Outline.ofText? template.source =
      some (p.outlineAt middle selection after (scanText template.source).trailer))
    (hsignature : p.signature = some request) (hcut : p.Cut middle selection after) :
    scanText (template.unsigned p.lead request).source =
      ⟨p.lead ++ (Scan.indent (dropLastBlank request.opener.gap)
          ⟨middle ++ selection.row ++ after, (scanText template.source).trailer⟩).lexemes,
        (Scan.indent (dropLastBlank request.opener.gap)
          ⟨middle ++ selection.row ++ after, (scanText template.source).trailer⟩).trailer⟩ := by
  have hderives : Derives .operation (scanText template.source).lexemes := by
    rw [hrow]
    exact hwell.derives
  rw [source_unsigned hwell hrow hsignature hcut, scanText, String.toList_ofList]
  exact Outline.scan_removeSignature ho (hderives.lawful ho) hsignature

/-- Helper: a cut behind another gap. -/
private theorem exists_indented (hcut : p.Cut middle selection after) (gap trailer : List Char) :
    ∃ middle' selection', (Scan.indent gap ⟨middle ++ selection.row ++ after, trailer⟩) =
        ⟨middle' ++ Enclosed.row selection' ++ after, trailer⟩ ∧
      (∀ l ∈ middle', l.isMark '{' = false) ∧ selection'.Closed '{' ∧
      ∃ next more, middle' ++ Enclosed.row selection' ++ after = next :: more ∧
        (next.isMark '@' = true ∨ next.isMark '{' = true) := by
  -- The gap comes to stand in front of a directive, or of the selection set
  rcases hcut.head with ⟨-, rfl⟩ | ⟨-, sign, more, rfl, hsign⟩
  · exact ⟨[], selection.regap (gap ++ selection.opener.gap), rfl, by simp, hcut.closed.regap _,
      _, _, rfl, .inr hcut.closed.opener⟩
  · refine ⟨{ sign with gap := gap ++ sign.gap } :: more, selection, rfl, ?_, hcut.closed, _, _,
      rfl, .inl hsign⟩
    exact List.forall_mem_cons.2 ⟨hcut.noBrace sign List.mem_cons_self,
      fun l hl => hcut.noBrace l (List.mem_cons_of_mem _ hl)⟩

/-- An operation is found without its signature. What stands behind the lead then begins with a
directive or with the selection set, and neither is taken for a signature. -/
theorem ofText?_unsigned (hwell : p.WellFormed) (hcut : p.Cut middle selection after)
    {text : String} {gap trailer : List Char}
    (hscan : scanText text =
      ⟨p.lead ++ (Scan.indent gap ⟨middle ++ selection.row ++ after, trailer⟩).lexemes,
        (Scan.indent gap ⟨middle ++ selection.row ++ after, trailer⟩).trailer⟩) :
    ∃ o, Outline.ofText? text = some o ∧ o.name = p.name.map Lexeme.word ∧ o.signature = none := by
  obtain ⟨middle', selection', heq, hmiddle, hclosed, next, more, hhead, hnext⟩ :=
    exists_indented hcut gap trailer
  rw [heq] at hscan
  let o : Outline := ⟨p.lead, p.name.map Lexeme.word, none, middle', selection', after, trailer⟩
  have hkind : next.isName = false ∧ next.isMark '(' = false := by
    rcases hnext with hmark | hmark <;>
      simp [Lexeme.isName, Lexeme.isMark, Lexeme.isMark_iff.1 hmark]
  have hlead := cutLead_lead hwell hkind.1 more
  rw [← hhead] at hlead
  have hscanned : o.scan = scanText text := by
    rw [hscan]
    simp [o, Outline.scan, Outline.signatureRow]
  refine ⟨o, ?_, rfl, rfl⟩
  rw [Outline.ofText?, ← hscanned]
  -- What follows the lead is a directive or the selection set, so no signature is found there
  refine Outline.ofScan?_of_parted ⟨by simp [o], hmiddle, hclosed⟩ hlead fun _ => ?_
  show (middle' ++ selection'.row ++ after).head?.any (Lexeme.isMark '(') = false
  rw [hhead]
  exact hkind.2

end OperationParts

/-! ## §4 Laws of the shorthand -/

/-- **The laws of the shorthand.** They compare a template that requests declarations with the
templates in which `ds`, which are inferred for it, are written out, or left out if there are none.

The first three laws are about the texts: what somebody would write is the text around the request,
it is prepared as it is, and its signature is read as `ds`. The others are about compilation,
against any library: apart from warnings, the results are the same, errors included. -/
structure ShorthandLaws (lib : Library) (template : Template) (lead : List Lexeme)
    (request : Enclosed) (values : JsonObject) (ds : List Declaration) : Prop where
  /-- The request stands between what is left in front of it and behind it. -/
  split : template.source.toList = Template.before lead request ++
    (Lexeme.spanText request.row ++ template.behind lead request)
  /-- The templates by hand are prepared as they are. -/
  prepared :
    (ds ≠ [] → Template.prepare template.kind (template.writtenOut lead request ds).source =
      template.writtenOut lead request ds) ∧
    (ds = [] → Template.prepare template.kind (template.unsigned lead request).source =
      template.unsigned lead request)
  /-- The signature written out is read as what is inferred. -/
  reads : ds ≠ [] → ∃ o signature,
    Outline.ofText? (template.writtenOut lead request ds).source = some o ∧
      o.signature = some signature ∧ o.signatureKind = .explicit ∧
      Declaration.readList signature.inner = ds
  /-- Declarations may be written out. -/
  writtenOut : ds ≠ [] → ∀ whenAbsent otherAbsent,
    (lib.compile (template.writtenOut lead request ds) values otherAbsent).map Compiled.unwarned =
      (lib.compile template values whenAbsent).map Compiled.unwarned
  /-- Where there are none, the signature may be left out. -/
  unsigned : ds = [] → ∀ whenAbsent,
    (lib.compile (template.unsigned lead request) values false).map Compiled.unwarned =
      (lib.compile template values whenAbsent).map Compiled.unwarned
  declares : ∀ whenAbsent compiled, lib.compile template values whenAbsent = .ok compiled →
    compiled.declarations = ds

/-- Helper: what is compiled declares what its outline declares. -/
private theorem declarations_of_compile {lib : Library} {template : Template} {values : JsonObject}
    {whenAbsent : Bool} {compiled : Compiled} {o : Outline}
    (ho : Outline.ofText? template.source = some o)
    (h : lib.compile template values whenAbsent = .ok compiled) :
    compiled.declarations = (o.declare template.source values whenAbsent).declarations := by
  obtain ⟨resolved, -, -, hdeclarations, -⟩ := Library.compile_inversion_of_outline ho h
  exact hdeclarations

/-- **A request stands for the declarations inferred for it**, whatever its layout, the library and
the values. Only the keys of the values are asked to be of a documented form, because what is
printed for other keys need not be read back. -/
theorem shorthandLaws_compile {p : OperationParts} (hwell : p.WellFormed) {template : Template}
    (hrow : (scanText template.source).lexemes = p.row) {request : Enclosed}
    (hsignature : p.signature = some request) (hrequest : request.IsRequest) {values : JsonObject}
    (hkeys : ∀ pair ∈ values, DocumentedKey pair.1) (lib : Library) :
    ∃ o, Outline.ofText? template.source = some o ∧
      ShorthandLaws lib template p.lead request values
        (infer o.referencedVariables values).declarations := by
  obtain ⟨middle, selection, after, hcut⟩ := p.exists_cut hwell
  have ho := OperationParts.ofText?_eq hwell hrow hcut.eq hcut.noBrace hcut.closed
  have hdeclare := Outline.declare_autodeclare (o := p.outlineAt middle selection after
    (scanText template.source).trailer) hsignature
    (OperationParts.autodeclare_outlineAt hsignature hrequest _) template.source values
  have hprintable := Outline.printable_inferred ho hkeys
  generalize hds : (infer (p.outlineAt middle selection after
    (scanText template.source).trailer).referencedVariables values).declarations = ds
    at hdeclare hprintable
  refine ⟨_, ho, ?_⟩
  rw [hds]
  -- Either the printed signature is read, or the operation is read without one
  have hwritten := fun hsome : ds ≠ [] => OperationParts.exists_printed_writtenOut hrow ho
    hsignature hcut hsome fun d hd => (hprintable d hd).1
  have hremoved := OperationParts.scan_unsigned hwell hrow ho hsignature hcut
  constructor
  case split => exact (OperationParts.split_signature hrow hsignature).1
  case prepared =>
    constructor
    · intro hsome
      obtain ⟨row, gap, -, hlexemes⟩ := hwritten hsome
      exact Template.prepare_of_lexemes hlexemes hwell.keyword
    · exact fun _ => Template.prepare_of_lexemes (congrArg Scan.lexemes hremoved) hwell.keyword
  case reads =>
    intro hsome
    obtain ⟨row, gap, hprinted, hlexemes⟩ := hwritten hsome
    obtain ⟨o, signature, hfound, -, hsigned, hkind, hreads⟩ :=
      OperationParts.ofText?_of_printed hwell hprinted hcut.noBrace hcut.closed hlexemes
    exact ⟨o, signature, hfound, hsigned, hkind, hreads⟩
  case writtenOut =>
    intro hsome whenAbsent otherAbsent
    obtain ⟨row, gap, hprinted, hlexemes⟩ := hwritten hsome
    obtain ⟨o, signature, hfound, hname, hsigned, hkind, hreads⟩ :=
      OperationParts.ofText?_of_printed hwell hprinted hcut.noBrace hcut.closed hlexemes
    -- The signature by hand is left as it is
    have hexplicit : o.declare (template.writtenOut p.lead request ds).source values otherAbsent =
        ⟨(template.writtenOut p.lead request ds).source, ds, []⟩ := by
      simp [Outline.declare, hsigned, hkind, hreads]
    refine lib.compile_congr ho hfound rfl hname ?_ ?_
    · rw [hexplicit, hdeclare, OperationParts.source_writtenOut hrow hsignature hcut hsome]
    · rw [hexplicit, hdeclare]
  case unsigned =>
    rintro rfl whenAbsent
    obtain ⟨o, hfound, hname, hnone⟩ := OperationParts.ofText?_unsigned hwell hcut hremoved
    have habsent : o.declare (template.unsigned p.lead request).source values false =
        ⟨(template.unsigned p.lead request).source, [], []⟩ := by
      simp [Outline.declare, hnone]
    refine lib.compile_congr ho hfound rfl hname ?_ ?_
    · rw [habsent, hdeclare, OperationParts.source_unsigned hwell hrow hsignature hcut]
    · rw [habsent, hdeclare]
  case declares =>
    intro whenAbsent compiled hcompile
    rw [declarations_of_compile ho hcompile, hdeclare]

/-! ## §5 A request with a directive behind it -/

/-- An operation that requests declarations, with a directive behind the request. -/
def requestingQuery : Template :=
  ⟨.query, "query (@autodeclare) @live {post}"⟩

theorem shorthandLaws_requestingQuery :
    (partsOfLiveQuery.requested [' ']).WellFormed ∧
      (scanText requestingQuery.source).lexemes = (partsOfLiveQuery.requested [' ']).row ∧
      (requestBehind [' ']).IsRequest ∧ (∀ pair ∈ liveValues, DocumentedKey pair.1) ∧
      ∃ o, Outline.ofText? requestingQuery.source = some o ∧
        (infer o.referencedVariables liveValues).declarations = [⟨"id", "ID!", none⟩] ∧
        ShorthandLaws Library.empty requestingQuery (partsOfLiveQuery.requested [' ']).lead
          (requestBehind [' ']) liveValues [⟨"id", "ID!", none⟩] ∧
        (infer o.referencedVariables []).declarations = [] ∧
        ShorthandLaws Library.empty requestingQuery (partsOfLiveQuery.requested [' ']).lead
          (requestBehind [' ']) [] [] := by
  have hwell := wellFormed_liveQuery.requested [' ']
  have hrow : (scanText requestingQuery.source).lexemes =
      (partsOfLiveQuery.requested [' ']).row := by
    decide +kernel
  have hrequest : (requestBehind [' ']).IsRequest := ⟨_, _, rfl, rfl, by decide⟩
  obtain ⟨o, ho, hlaws⟩ :=
    shorthandLaws_compile hwell hrow rfl hrequest documented_liveValues Library.empty
  -- The same operation without values: nothing is declared, and the signature may be left out
  obtain ⟨bare, hbare, hbareLaws⟩ :=
    shorthandLaws_compile hwell hrow rfl hrequest (List.forall_mem_nil _) Library.empty
  rw [ho, Option.some.injEq] at hbare
  subst hbare
  have hinferred : (Outline.ofText? requestingQuery.source).map (fun o =>
      ((infer o.referencedVariables liveValues).declarations,
        (infer o.referencedVariables []).declarations)) = some ([⟨"id", "ID!", none⟩], []) := by
    decide +kernel
  rw [ho, Option.map_some, Option.some.injEq, Prod.mk.injEq] at hinferred
  obtain ⟨hsome, hnone⟩ := hinferred
  rw [hsome] at hlaws
  rw [hnone] at hbareLaws
  exact ⟨hwell, hrow, hrequest, documented_liveValues, o, ho, hsome, hlaws, hnone, hbareLaws⟩

/-- Written out, the declaration stands where the request stood. -/
example : (requestingQuery.writtenOut partsOfLiveQuery.lead (requestBehind [' '])
    [⟨"id", "ID!", none⟩]).source = "query ($id: ID!) @live {post}" := by
  decide +kernel

end QueryWeave
