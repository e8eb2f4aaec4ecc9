import QueryWeave.Proofs.Operation.Declared
import QueryWeave.Proofs.Operation.Parts

/-!
# Declarations Without a Request

An operation without a signature may be compiled as though it had requested inferred declarations.
The request would have stood right behind the keyword and the name; what is inferred without one is
put directly in front of the selection set. Between the two stand the directives. So the operation
is compiled as though it had made the request exactly if it has no directives; if it has any, the
signature stands where none is read.

- `Template.requested`: a template that makes the request.
- `RequestLaws`: an operation that is compiled with the request, and without it.
- `requestLaws_compile`: both are compiled, and the laws hold.
-/

namespace QueryWeave

/-! ## §1 Brackets of resolved rows -/

theorem Balanced.respread {row : List Lexeme} (h : Balanced row) :
    Balanced (QueryWeave.respread Spread.resolved row) := by
  rw [← balanced_brackets, filter_respread (fun _ => not_isBracket_of_path) fun _ _ => rfl,
    balanced_brackets]
  exact h

/-- Brackets around a row stay around it when its spreads are resolved. -/
def Enclosed.resolved (e : Enclosed) : Enclosed :=
  { e with inner := respread Spread.resolved e.inner }

theorem respread_enclosed {e : Enclosed} {opener : Char} (h : e.Closed opener)
    (after : List Lexeme) :
    respread Spread.resolved (e.row ++ after) =
      e.resolved.row ++ respread Spread.resolved after := by
  have hopener : ∀ l ∈ [e.opener], l.kind ≠ .ellipsis := by
    simp [Lexeme.isMark_iff.1 h.opener]
  have hcloser : e.closer.kind ≠ .ellipsis := by
    rcases Lexeme.closes_iff.1 h.closer with hkind | hkind | hkind <;> simp [hkind]
  have hend := continuable_of_isBracket (Bool.or_eq_true_iff.2 (.inr h.closer)) after
  have hrow : e.row ++ after = [e.opener] ++ (e.inner ++ e.closer :: after) := by
    simp [Enclosed.row]
  have hclosing := @respread_append_left Spread.resolved [e.closer] after (by simp [hcloser])
  -- No path reaches over either bracket, so what is inside is resolved by itself
  rw [hrow, respread_append_left hopener, respread_append hend]
  rw [List.singleton_append] at hclosing
  rw [hclosing]
  simp [Enclosed.row, Enclosed.resolved]

theorem Enclosed.Closed.resolved {e : Enclosed} {opener : Char} (h : e.Closed opener) :
    e.resolved.Closed opener :=
  ⟨h.opener, h.inner.respread, h.closer⟩

/-! ## §2 Where a signature is read -/

/-- Whether a compiled operation has a signature, and its declarations are what is read there. A
signature behind directives is text that no reader takes for one. -/
def Compiled.Declares (c : Compiled) : Prop :=
  ∃ o signature, Outline.ofText? c.operation = some o ∧ o.signatureKind = .explicit ∧
    o.signature = some signature ∧ Declaration.readList signature.inner = c.declarations

/-- The bytes of a printed signature are not those of a request. -/
theorem explicit_of_printed {ds : List Declaration} {row : List Lexeme}
    (h : Printed ds [] row) {o : Outline} {opener closer : Lexeme}
    (ho : o.signature = some ⟨opener, row, closer⟩) : o.signatureKind = .explicit := by
  unfold Outline.signatureKind
  rw [ho]
  dsimp only
  split
  · -- A variable stands first, and no at sign
    rename_i first name
    have hkind := Lexeme.isVariable_iff.1 (by simpa using h.head : first.isVariable = true)
    simp [Lexeme.isMark, hkind]
  · rfl

namespace OperationParts

variable {p : OperationParts}

/-- A printed signature is found right behind the keyword and the name, and read there. What is
behind it may be anything that has no brace in front of a selection. -/
theorem ofText?_of_printed (hwell : p.WellFormed) {text : String} {ds : List Declaration}
    {row : List Lexeme} (hprinted : Printed ds [] row) {gap : List Char}
    {middle after : List Lexeme} {selection : Enclosed}
    (hmiddle : ∀ l ∈ middle, l.isMark '{' = false) (hselection : selection.Closed '{')
    (hrow : (scanText text).lexemes =
      p.lead ++ (signatureOf gap row ++ (middle ++ (selection.row ++ after)))) :
    ∃ o signature, Outline.ofText? text = some o ∧ o.name = p.name.map Lexeme.word ∧
      o.signature = some signature ∧ o.signatureKind = .explicit ∧
      Declaration.readList signature.inner = ds := by
  let signature : Enclosed := ⟨⟨gap, .punctuator '(', ['(']⟩, row, ⟨[], .punctuator ')', [')']⟩⟩
  let o : Outline :=
    ⟨p.lead, p.name.map Lexeme.word, some signature, middle, selection, after,
      (scanText text).trailer⟩
  have hsignature : signature.Closed '(' := ⟨rfl, hprinted.orderly.balanced, rfl⟩
  have ho : Outline.ofText? text = some o := by
    -- The parts are cut where an outline would cut them
    have hparted : o.Parted :=
      ⟨fun e he => Option.some.inj he ▸ hsignature, hmiddle, hselection⟩
    have hscan : o.scan = scanText text := by
      rw [show scanText text = ⟨(scanText text).lexemes, (scanText text).trailer⟩ from rfl, hrow]
      simp [o, Outline.scan, Outline.signatureRow, Enclosed.row, signatureOf, signature]
    rw [Outline.ofText?, ← hscan]
    exact Outline.ofScan?_of_parted hparted (cutLead_lead hwell rfl _) (by simp [o])
  have hreads := hprinted.reads [] rfl
  simp only [List.append_nil] at hreads
  refine ⟨o, signature, ho, rfl, rfl, explicit_of_printed hprinted rfl, ?_⟩
  rw [hreads]
  simp [Declaration.readList]

/-- What is compiled with a printed signature declares what is printed there. -/
theorem declares_of_scan (hwell : p.WellFormed) {c : Compiled} {row : List Lexeme}
    (hprinted : Printed c.declarations [] row) {gap : List Char} {middle after : List Lexeme}
    {selection : Enclosed} (hmiddle : ∀ l ∈ middle, l.isMark '{' = false)
    (hselection : selection.Closed '{')
    (hrow : (scanText c.operation).lexemes =
      p.lead ++ (signatureOf gap row ++ (middle ++ (selection.row ++ after)))) :
    c.Declares := by
  obtain ⟨o, signature, ho, -, hsignature, hkind, hreads⟩ :=
    ofText?_of_printed hwell hprinted hmiddle hselection hrow
  exact ⟨o, signature, ho, hkind, hsignature, hreads⟩

/-- No signature is read behind a directive. -/
theorem not_declares_of_scan (hwell : p.WellFormed) {c : Compiled} {sign : Lexeme}
    (hsign : sign.isMark '@' = true) {more : List Lexeme}
    (hrow : (scanText c.operation).lexemes = p.lead ++ sign :: more) : ¬ c.Declares := by
  rintro ⟨o, signature, ho, -, hsome, -⟩
  have hkind := Lexeme.isMark_iff.1 hsign
  have hlead := cutLead_lead hwell (by simp [Lexeme.isName, hkind] : sign.isName = false) more
  have hnone : cutSignature (sign :: more) = some (none, sign :: more) := by
    simp [cutSignature, Lexeme.isMark, hkind]
  obtain ⟨_, _, hcut, hsignature, -⟩ := Outline.ofScan?_inversion ho
  rw [hrow, hlead] at hcut
  rw [← (Prod.mk.inj (Prod.mk.inj hcut).2).2, hnone, hsome] at hsignature
  cases hsignature

/-! ## §3 What stands behind the signature -/

/-- A cut behind the signature at the first brace there. The part that is cut out need not be the
selection set of the operation: an object among the arguments of a directive has a brace as well. -/
structure Cut (p : OperationParts) (middle : List Lexeme) (selection : Enclosed)
    (after : List Lexeme) : Prop where
  eq : p.directives ++ p.selection.row = middle ++ selection.row ++ after
  noBrace : ∀ l ∈ middle, l.isMark '{' = false
  noEllipsis : ∀ l ∈ middle, l.kind ≠ .ellipsis
  closed : selection.Closed '{'
  head : (p.directives = [] ∧ middle = []) ∨
    p.directives ≠ [] ∧ ∃ sign more, middle = sign :: more ∧ sign.isMark '@' = true

/-- Helper: directives begin with an at sign. -/
private theorem directives_head {row : List Lexeme} (h : Derives (.directives false) row) :
    row = [] ∨ ∃ sign more, row = sign :: more ∧ sign.isMark '@' = true := by
  cases h with
  | directivesNil => exact .inl rfl
  | directivesCons hsign => exact .inr ⟨_, _, rfl, hsign⟩

theorem exists_cut (hwell : p.WellFormed) :
    ∃ middle selection after, p.Cut middle selection after := by
  have hdots := hwell.directives.kind_ne_ellipsis rfl
  have hdirectives := directives_head hwell.directives
  rcases hwell.directives.objectFirst rfl with hnone | ⟨before, object, after, hsplit, hobject,
    hbefore⟩
  · refine ⟨p.directives, p.selection, [], by simp, hnone, hdots,
      hwell.selection.closed_selection, ?_⟩
    rcases hdirectives with hnil | ⟨sign, more, heq, hsign⟩
    · exact .inl ⟨hnil, hnil⟩
    · exact .inr ⟨by simp [heq], sign, more, heq, hsign⟩
  · refine ⟨before, object, after ++ p.selection.row, by simp [hsplit], hbefore,
      fun l hl => hdots l (by simp [hsplit, hl]), hobject.closed, .inr ⟨?_, ?_⟩⟩
    · simp [hsplit, Enclosed.row]
    · obtain ⟨sign, more, heq, hsign⟩ := hdirectives.resolve_left (by simp [hsplit, Enclosed.row])
      rw [hsplit] at heq
      cases before with
      | nil =>
        -- The at sign is not the brace
        cases heq
        have hopener := hobject.opener
        simp [Lexeme.isMark, Lexeme.isMark_iff.1 hsign] at hopener
      | cons first rest =>
        cases heq
        exact ⟨_, _, rfl, hsign⟩

end OperationParts

/-! ## §4 Requests -/

/-- A request for inferred declarations, behind a gap. -/
def requestBehind (gap : List Char) : Enclosed :=
  ⟨markBehind gap '(', [markBehind [] '@', nameBehind [] "autodeclare"], markBehind [] ')'⟩

/-- A template with a request written behind the keyword and the name, which `lead` is made of. -/
def Template.requested (t : Template) (lead : List Lexeme) (gap : List Char) : Template :=
  { t with
    source := String.ofList (Lexeme.charsOf lead ++ gap ++ "(@autodeclare)".toList ++
      t.source.toList.drop (Lexeme.charsOf lead).length) }

namespace OperationParts

variable {p : OperationParts} {template : Template} {gap : List Char}

/-- The operation with a request for its signature. -/
def requested (p : OperationParts) (gap : List Char) : OperationParts :=
  { p with signature := some (requestBehind gap) }

theorem WellFormed.requested (hwell : p.WellFormed) (gap : List Char) :
    (p.requested gap).WellFormed where
  keyword := hwell.keyword
  name := hwell.name
  signature := .autodeclare rfl rfl rfl (by decide) rfl
  directives := hwell.directives
  selection := hwell.selection

/-- The operation opens with a keyword, as the grammar has it. -/
theorem WellFormed.derives (hwell : p.WellFormed) : Derives .operation p.row := by
  unfold row front lead
  cases hp : p.name with
  | none =>
    simpa using Derives.anonymous hwell.keyword hwell.signature hwell.directives hwell.selection
  | some name =>
    simpa using Derives.named hwell.keyword (hwell.name name hp) hwell.signature hwell.directives
      hwell.selection

theorem WellFormed.names_lead (hwell : p.WellFormed) : ∀ l ∈ p.lead, l.kind = .name :=
  List.forall_mem_cons.2 ⟨Lexeme.isName_of_isKeyword hwell.keyword, fun l hl =>
    hwell.name l (Option.mem_toList.1 hl)⟩

/-- A template that makes the request is read as the operation with the request. The request is put
in behind the lead, and separates from what follows by its own parenthesis. -/
theorem scan_requested (hwell : p.WellFormed) (hnone : p.signature = none)
    (hrow : (scanText template.source).lexemes = p.row) (hgap : IsGap gap) :
    scanText (template.requested p.lead gap).source =
      ⟨(p.requested gap).row, (scanText template.source).trailer⟩ := by
  obtain ⟨hspells, htrailer⟩ := spells_scan template.source.toList
  have hchars : (scanText template.source).chars = template.source.toList := chars_scan _
  have hparts : p.row = p.lead ++ (p.directives ++ p.selection.row) := by
    simp [row, front, signatureRow, hnone]
  change Lexeme.Spells (scanText template.source).lexemes
    (scanText template.source).trailer at hspells
  rw [hrow, hparts] at hspells
  rw [Scan.chars, hrow, hparts, Lexeme.charsOf_append, List.append_assoc] at hchars
  obtain ⟨hlead, hbehind⟩ := Lexeme.spells_append.1 hspells
  have hleadBack : ReadBack p.lead :=
    readBack_of_spells hlead fun l hl => hlead.whole_of_kind l hl (by simp [hwell.names_lead l hl])
  -- The request is read back whatever stands behind its closing parenthesis
  have hname : (nameBehind [] "autodeclare").Whole :=
    IsName.whole ⟨'a', "utodeclare".toList, rfl, by decide, by decide⟩ rfl
  have hrequest : ReadBack [markBehind [] '@', nameBehind [] "autodeclare"] :=
    ReadBack.mark rfl (by decide) isGap_nil (whole_mark (by decide))
      (readBack_singleton isGap_nil hname)
  have hfront := spells_signatureOf hleadBack hrequest hgap
    (Lexeme.charsOf (p.directives ++ p.selection.row) ++ (scanText template.source).trailer)
  have htext : (template.requested p.lead gap).source.toList =
      Lexeme.charsOf (p.lead ++ signatureOf gap [markBehind [] '@', nameBehind [] "autodeclare"]) ++
        (Lexeme.charsOf (p.directives ++ p.selection.row) ++
          (scanText template.source).trailer) := by
    have hdrop : template.source.toList.drop (Lexeme.charsOf p.lead).length =
        Lexeme.charsOf (p.directives ++ p.selection.row) ++ (scanText template.source).trailer := by
      rw [← hchars, List.drop_left]
    simp [Template.requested, hdrop, signatureOf, markBehind, nameBehind]
  rw [scanText, htext, scan_of_spells hfront, scan_charsOf hbehind htrailer]
  simp [row, front, lead, signatureRow, requested, requestBehind, Enclosed.row, signatureOf,
    markBehind]

end OperationParts

/-! ## §5 Compiled with the request and without it

The same operation is compiled twice, with the request in front of its directives and without it.
Both results are written down row by row, and the laws compare the rows. -/

theorem Outline.autodeclare_of_requestBehind {o : Outline} {gap : List Char}
    (hrequest : o.signature = some (requestBehind gap)) : o.signatureKind = .autodeclare := by
  unfold signatureKind
  rw [hrequest]
  exact if_pos (by decide)

/-- An enclosed part behind another gap. -/
def Enclosed.regap (e : Enclosed) (gap : List Char) : Enclosed :=
  { e with opener := { e.opener with gap } }

theorem Enclosed.Closed.regap {e : Enclosed} {opener : Char} (h : e.Closed opener)
    (gap : List Char) : (e.regap gap).Closed opener :=
  ⟨h.opener, h.inner, h.closer⟩

/-- What stands behind a bracket is spread as though the bracket were not there. -/
theorem spreadPaths_enclosed {e : Enclosed} {opener : Char} (h : e.Closed opener)
    {front : List Lexeme} (hfront : ∀ l ∈ front, l.kind ≠ .ellipsis) (after : List Lexeme) :
    spreadPaths (front ++ (e.row ++ after)) = spreadPaths (e.inner ++ e.closer :: after) := by
  have hopener : ∀ l ∈ [e.opener], l.kind ≠ .ellipsis := by
    simp [Lexeme.isMark_iff.1 h.opener]
  have hrow : e.row ++ after = [e.opener] ++ (e.inner ++ e.closer :: after) := by
    simp [Enclosed.row]
  rw [spreadPaths, spreads_append_left hfront, hrow, spreads_append_left hopener, spreadPaths]

/-- What an operation is compiled to, if its spreads all stand behind a bracket. Both ways to write
the declarations come to this: they differ in what is in front of the bracket. -/
theorem Library.exists_compiled_of_scan {lib : Library} {template other : Template}
    {resolved : Resolved} (hresolve : lib.resolve other.source = .ok resolved) {o : Outline}
    (ho : Outline.ofText? template.source = some o) {values : JsonObject} {whenAbsent : Bool}
    {front after : List Lexeme} {trailer : List Char} {e : Enclosed}
    (hscan : scanText (o.declare template.source values whenAbsent).text =
      ⟨front ++ (e.row ++ after), trailer⟩)
    (hfront : ∀ l ∈ front, l.kind ≠ .ellipsis) {opener : Char} (he : e.Closed opener)
    (hpaths : spreadPaths (scanText other.source).lexemes =
      spreadPaths (e.inner ++ e.closer :: after)) :
    ∃ compiled, lib.compile template values whenAbsent = .ok compiled ∧
      compiled.declarations = (o.declare template.source values whenAbsent).declarations ∧
      compiled.fragmentNames = resolved.used ∧
      scanText compiled.operation =
        ⟨front ++ (e.resolved.row ++ respread Spread.resolved after), trailer⟩ := by
  -- The declarations spread nothing, so both texts ask the library for the same paths
  have hsame : spreadPaths (scanText (o.declare template.source values whenAbsent).text).lexemes =
      spreadPaths (scanText other.source).lexemes := by
    rw [hscan, spreadPaths_enclosed he hfront, hpaths]
  have hagain := lib.resolve_congr hresolve hsame
  obtain ⟨compiled, hcompile, hdeclarations, hoperation, hnames⟩ :=
    Library.exists_compiled ho hagain
  refine ⟨compiled, hcompile, hdeclarations, hnames, ?_⟩
  rw [hoperation, lib.scan_resolved hagain, hscan, respread_append_left hfront,
    respread_enclosed he]

section Compile

variable {p : OperationParts} {template : Template} {values : JsonObject} {lib : Library}
  {resolved : Resolved} {middle after : List Lexeme} {selection : Enclosed} {row : List Lexeme}

/-- What is inferred for the variables of a selection set. -/
def inferredFor (selection : Enclosed) (values : JsonObject) : List Declaration :=
  (infer (Names.distinct (OperationParts.variablesIn selection.row)) values).declarations

/-- Helper: no spread stands in the keyword and the name, or in a printed signature. -/
private theorem noEllipsis_front (hwell : p.WellFormed) {ds : List Declaration}
    (hprinted : Printed ds [] row) :
    (∀ l ∈ p.lead, l.kind ≠ .ellipsis) ∧ ∀ gap, ∀ l ∈ signatureOf gap row, l.kind ≠ .ellipsis :=
  ⟨fun l hl => by simp [hwell.names_lead l hl], fun _ => List.forall_mem_append.2
    ⟨List.forall_mem_cons.2 ⟨by simp, hprinted.noEllipsis⟩, by simp⟩⟩

/-- Helper: an operation without a signature spreads what it spreads behind the brace. -/
private theorem spreadPaths_of_cut (hwell : p.WellFormed) (hnone : p.signature = none)
    (hrow : (scanText template.source).lexemes = p.row) (hcut : p.Cut middle selection after) :
    spreadPaths (scanText template.source).lexemes =
      spreadPaths (selection.inner ++ selection.closer :: after) := by
  have hlead : ∀ l ∈ p.lead, l.kind ≠ .ellipsis := fun l hl => by simp [hwell.names_lead l hl]
  have hparts : p.row = (p.lead ++ middle) ++ (selection.row ++ after) := by
    have hcutRow := hcut.eq
    simp only [OperationParts.row, OperationParts.front, OperationParts.signatureRow, hnone,
      Option.map_none, Option.getD_none, List.append_nil, List.append_assoc] at hcutRow ⊢
    rw [hcutRow]
  rw [hrow, hparts]
  exact spreadPaths_enclosed hcut.closed (List.forall_mem_append.2 ⟨hlead, hcut.noEllipsis⟩) after

/-- Without the request, what is inferred stands behind the directives. It is put in front of the
brace that was taken for the selection set, wherever the signature would belong. -/
theorem exists_compiled_absent (hwell : p.WellFormed) (hnone : p.signature = none)
    (hrow : (scanText template.source).lexemes = p.row) (hcut : p.Cut middle selection after)
    (hresolve : lib.resolve template.source = .ok resolved)
    (hsome : inferredFor selection values ≠ [])
    (hprinted : Printed (inferredFor selection values) [] row) :
    ∃ compiled, lib.compile template values true = .ok compiled ∧
      compiled.declarations = inferredFor selection values ∧
      compiled.fragmentNames = resolved.used ∧
      (scanText compiled.operation).lexemes =
        p.lead ++ (middle ++ (signatureOf selection.opener.gap row ++
          ((selection.regap [' ']).resolved.row ++ respread Spread.resolved after))) := by
  obtain ⟨hlead, hsignature⟩ := noEllipsis_front hwell hprinted
  have ho := OperationParts.ofText?_eq hwell hrow hcut.eq hcut.noBrace hcut.closed
  have hdeclared := Outline.declare_absent
    (o := p.outlineAt middle selection after (scanText template.source).trailer)
    hnone template.source values
  have hscan : scanText ((p.outlineAt middle selection after
      (scanText template.source).trailer).declare template.source values true).text =
      ⟨(p.lead ++ (middle ++ signatureOf selection.opener.gap row)) ++
        ((selection.regap [' ']).row ++ after), (scanText template.source).trailer⟩ := by
    rw [hdeclared, scanText, String.toList_ofList]
    refine (Outline.scan_insertSignature ho hnone hsome hprinted).trans ?_
    simp [OperationParts.outlineAt, Enclosed.row, Enclosed.regap, Lexeme.regap]
  have hfront : ∀ l ∈ p.lead ++ (middle ++ signatureOf selection.opener.gap row),
      l.kind ≠ .ellipsis :=
    List.forall_mem_append.2 ⟨hlead, List.forall_mem_append.2 ⟨hcut.noEllipsis, hsignature _⟩⟩
  -- No spread stands in front of the selection set, so the same fragments are needed
  have hpaths := spreadPaths_of_cut hwell hnone hrow hcut
  obtain ⟨compiled, hcompile, hdeclarations, hnames, hoperation⟩ :=
    Library.exists_compiled_of_scan hresolve ho hscan hfront (hcut.closed.regap [' ']) hpaths
  refine ⟨compiled, hcompile, ?_, hnames, ?_⟩
  · rw [hdeclarations, hdeclared]
    rfl
  · rw [hoperation]
    simp only [List.append_assoc]

/-- With the request, what is inferred stands in front of the directives: it takes the place of the
request, and that is where a signature belongs. -/
theorem exists_compiled_requested (hwell : p.WellFormed) (hnone : p.signature = none)
    (hrow : (scanText template.source).lexemes = p.row) (hcut : p.Cut middle selection after)
    (hresolve : lib.resolve template.source = .ok resolved) {gap : List Char} (hgap : IsGap gap)
    (whenAbsent : Bool) (hsome : inferredFor selection values ≠ [])
    (hprinted : Printed (inferredFor selection values) [] row) :
    ∃ compiled, lib.compile (template.requested p.lead gap) values whenAbsent = .ok compiled ∧
      compiled.declarations = inferredFor selection values ∧
      compiled.fragmentNames = resolved.used ∧
      (scanText compiled.operation).lexemes =
        p.lead ++ (signatureOf gap row ++ (middle ++
          (selection.resolved.row ++ respread Spread.resolved after))) := by
  obtain ⟨hlead, hsignature⟩ := noEllipsis_front hwell hprinted
  have hscanRequested := OperationParts.scan_requested hwell hnone hrow hgap
  have hwellRequested := hwell.requested gap
  have ho := OperationParts.ofText?_eq hwellRequested (congrArg Scan.lexemes hscanRequested)
    hcut.eq hcut.noBrace hcut.closed
  have hdeclared := Outline.declare_autodeclare
    (o := (p.requested gap).outlineAt middle selection after
      (scanText (template.requested p.lead gap).source).trailer)
    rfl (Outline.autodeclare_of_requestBehind rfl) (template.requested p.lead gap).source values
    whenAbsent
  have hscan : scanText (((p.requested gap).outlineAt middle selection after
      (scanText (template.requested p.lead gap).source).trailer).declare
        (template.requested p.lead gap).source values whenAbsent).text =
      ⟨(p.lead ++ (signatureOf gap row ++ middle)) ++ (selection.row ++ after),
        (scanText (template.requested p.lead gap).source).trailer⟩ := by
    rw [hdeclared, scanText, String.toList_ofList]
    refine (Outline.scan_replaceSignature ho rfl hsome hprinted).trans ?_
    simp [OperationParts.outlineAt, OperationParts.requested, OperationParts.lead, requestBehind,
      markBehind]
  have hfront : ∀ l ∈ p.lead ++ (signatureOf gap row ++ middle), l.kind ≠ .ellipsis :=
    List.forall_mem_append.2 ⟨hlead, List.forall_mem_append.2 ⟨hsignature _, hcut.noEllipsis⟩⟩
  -- The request is replaced in front of the first spread, so the same fragments are needed
  have hpaths := spreadPaths_of_cut hwell hnone hrow hcut
  obtain ⟨compiled, hcompile, hdeclarations, hnames, hoperation⟩ :=
    Library.exists_compiled_of_scan hresolve ho hscan hfront hcut.closed hpaths
  refine ⟨compiled, hcompile, ?_, hnames, ?_⟩
  · rw [hdeclarations, hdeclared]
    rfl
  · rw [hoperation]
    simp only [List.append_assoc]

end Compile

/-! ## §6 Laws of requests -/

/-- How an operation without a signature is compiled, against the same operation with a request. The
declarations and the fragments are always the same. The text is not: it has the signature in another
place if there are directives. -/
structure RequestLaws (p : OperationParts) (compiled asRequested : Compiled) : Prop where
  declarations : compiled.declarations = asRequested.declarations
  fragmentNames : compiled.fragmentNames = asRequested.fragmentNames
  /-- Where the request was made, what is declared is read as a signature. -/
  requested : asRequested.Declares
  declares : compiled.Declares ↔ p.directives = []
  tokens : tokensOf compiled.operation = tokensOf asRequested.operation ↔ p.directives = []

/-- **An operation without a signature is compiled as though it had made the request exactly if it
has no directives.**

The request is put behind the keyword and the name, behind any gap. If nothing is inferred, both
operations stay without a signature, and there is nothing to be compared. -/
theorem requestLaws_compile {p : OperationParts} (hwell : p.WellFormed) (hnone : p.signature = none)
    {template : Template} (hrow : (scanText template.source).lexemes = p.row) {values : JsonObject}
    (hkeys : ∀ pair ∈ values, DocumentedKey pair.1) {lib : Library} {resolved : Resolved}
    (hresolve : lib.resolve template.source = .ok resolved) {gap : List Char} (hgap : IsGap gap)
    (whenAbsent : Bool) :
    ∃ o, Outline.ofText? template.source = some o ∧
      ((infer o.referencedVariables values).declarations ≠ [] →
        ∃ compiled asRequested, lib.compile template values true = .ok compiled ∧
          lib.compile (template.requested p.lead gap) values whenAbsent = .ok asRequested ∧
          compiled.declarations = (infer o.referencedVariables values).declarations ∧
          RequestLaws p compiled asRequested) := by
  obtain ⟨middle, selection, after, hcut⟩ := p.exists_cut hwell
  have ho := OperationParts.ofText?_eq hwell hrow hcut.eq hcut.noBrace hcut.closed
  refine ⟨_, ho, fun hsome => ?_⟩
  obtain ⟨row, hprinted⟩ := exists_printed hsome
    (fun d hd => (Outline.printable_inferred ho hkeys d hd).1) isGap_nil
  obtain ⟨compiled, hcompile, hdeclarations, hnames, hscan⟩ :=
    exists_compiled_absent hwell hnone hrow hcut hresolve hsome hprinted
  obtain ⟨asRequested, hcompileRequested, hdeclarationsRequested, hnamesRequested,
    hscanRequested⟩ :=
    exists_compiled_requested hwell hnone hrow hcut hresolve hgap whenAbsent hsome hprinted
  refine ⟨compiled, asRequested, hcompile, hcompileRequested, hdeclarations,
    hdeclarations.trans hdeclarationsRequested.symm, hnames.trans hnamesRequested.symm, ?_, ?_, ?_⟩
  case refine_1 =>
    have hprintedRequested : Printed asRequested.declarations [] row :=
      hdeclarationsRequested ▸ hprinted
    exact OperationParts.declares_of_scan hwell hprintedRequested hcut.noBrace hcut.closed.resolved
      hscanRequested
  case refine_2 =>
    rcases hcut.head with ⟨hnil, rfl⟩ | ⟨hdirectives, sign, more, rfl, hsign⟩
    · have hprintedCompiled : Printed compiled.declarations [] row := hdeclarations ▸ hprinted
      refine ⟨fun _ => hnil, fun _ => ?_⟩
      exact OperationParts.declares_of_scan hwell hprintedCompiled (List.forall_mem_nil _)
        (hcut.closed.regap [' ']).resolved hscan
    · refine ⟨fun hdeclares => ?_, fun hnil => absurd hnil hdirectives⟩
      exact absurd hdeclares (OperationParts.not_declares_of_scan hwell hsign hscan)
  case refine_3 =>
    unfold tokensOf
    rw [hscan, hscanRequested]
    rcases hcut.head with ⟨hnil, rfl⟩ | ⟨hdirectives, sign, more, rfl, hsign⟩
    · refine ⟨fun _ => hnil, fun _ => ?_⟩
      simp [signatureOf, Lexeme.token, Enclosed.row, Enclosed.resolved, Enclosed.regap]
    · -- The first token behind the lead is an at sign here, and a parenthesis there
      refine ⟨fun htokens => ?_, fun hnil => absurd hnil hdirectives⟩
      simp only [List.map_append, List.append_cancel_left_eq] at htokens
      simp [signatureOf, Lexeme.token, Lexeme.isMark_iff.1 hsign] at htokens

/-! ## §7 A directive in the way -/

/-- An operation with a directive and without a signature. -/
def liveQuery : Template :=
  ⟨.query, "query @live {post}"⟩

/-- Its parts. -/
def partsOfLiveQuery : OperationParts where
  keyword := nameBehind [] "query"
  name := none
  signature := none
  directives := [markBehind [' '] '@', nameBehind [] "live"]
  selection := ⟨markBehind [' '] '{', [nameBehind [] "post"], markBehind [] '}'⟩

/-- A variable that is declared as an identifier. -/
def liveValues : JsonObject := [("id", .number (.int 1))]

theorem documented_liveValues : ∀ pair ∈ liveValues, DocumentedKey pair.1 := by
  have hid : IsName "id".toList := ⟨'i', ['d'], rfl, by decide, by decide⟩
  simpa [liveValues] using DocumentedKey.bare hid

theorem wellFormed_liveQuery : partsOfLiveQuery.WellFormed where
  keyword := by decide
  name := by simp [partsOfLiveQuery]
  signature := .noSignature
  directives := .directivesCons rfl rfl .noArguments .directivesNil
  selection := by
    have hfield : Derives .field [nameBehind [] "post"] :=
      .field rfl .noArguments .directivesNil .noSubselection
    exact .selectionSet rfl (.selectionsCons (.bareField hfield) .selectionsNil) (by decide) rfl

theorem requestLaws_liveQuery : partsOfLiveQuery.WellFormed ∧ partsOfLiveQuery.signature = none ∧
    (scanText liveQuery.source).lexemes = partsOfLiveQuery.row ∧
    (∀ pair ∈ liveValues, DocumentedKey pair.1) ∧ IsGap [] ∧
    (∃ resolved, Library.empty.resolve liveQuery.source = .ok resolved) ∧
    ∃ compiled asRequested, Library.empty.compile liveQuery liveValues true = .ok compiled ∧
      Library.empty.compile (liveQuery.requested partsOfLiveQuery.lead []) liveValues false =
        .ok asRequested ∧
      compiled.declarations = [⟨"id", "ID!", none⟩] ∧
      RequestLaws partsOfLiveQuery compiled asRequested := by
  have hrow : (scanText liveQuery.source).lexemes = partsOfLiveQuery.row := by decide +kernel
  have hkeys := documented_liveValues
  have hresolve := Library.empty.resolve_of_no_spreads
    (by decide +kernel : spreadPaths (scanText liveQuery.source).lexemes = [])
  obtain ⟨o, ho, hlaws⟩ :=
    requestLaws_compile wellFormed_liveQuery rfl hrow hkeys hresolve isGap_nil false
  -- The identifier is declared, so there is something to be put into the text
  have hinferred : (Outline.ofText? liveQuery.source).map (fun o =>
      (infer o.referencedVariables liveValues).declarations) = some [⟨"id", "ID!", none⟩] := by
    decide +kernel
  rw [ho, Option.map_some, Option.some.injEq] at hinferred
  rw [hinferred] at hlaws
  exact ⟨wellFormed_liveQuery, rfl, hrow, hkeys, isGap_nil, ⟨_, hresolve⟩, hlaws (by simp)⟩

/-- The declarations stand behind the directive, where none are read. With the request written out,
they stand in front of it. -/
theorem not_asRequested_liveQuery :
    ∃ compiled asRequested, Library.empty.compile liveQuery liveValues true = .ok compiled ∧
      Library.empty.compile (liveQuery.requested partsOfLiveQuery.lead []) liveValues false =
        .ok asRequested ∧
      compiled.declarations = [⟨"id", "ID!", none⟩] ∧
      compiled.operation = "query @live ($id: ID!) {post}" ∧
      asRequested.operation = "query($id: ID!) @live {post}" ∧
      ¬ compiled.Declares ∧ tokensOf compiled.operation ≠ tokensOf asRequested.operation := by
  have hcompile : Library.empty.compile liveQuery liveValues true = .ok
      ⟨.query, none, [⟨"id", "ID!", none⟩], "query @live ($id: ID!) {post}", [], [], []⟩ :=
    Library.empty.compile_of_no_spreads (by decide +kernel) (by decide +kernel)
  have hrequested :
      Library.empty.compile (liveQuery.requested partsOfLiveQuery.lead []) liveValues false = .ok
        ⟨.query, none, [⟨"id", "ID!", none⟩], "query($id: ID!) @live {post}", [], [], []⟩ :=
    Library.empty.compile_of_no_spreads (by decide +kernel) (by decide +kernel)
  refine ⟨_, _, hcompile, hrequested, rfl, rfl, rfl, ?_, ?_⟩
  · -- The inserted list stands behind a directive, where no signature is looked for
    rintro ⟨o, signature, ho, -, hsome, -⟩
    have hnone : (Outline.ofText? "query @live ($id: ID!) {post}").map Outline.signature =
        some none := by
      decide +kernel
    simp [ho, hsome] at hnone
  · decide +kernel

end QueryWeave
