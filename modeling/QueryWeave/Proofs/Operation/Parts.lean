import QueryWeave.Proofs.Lexeme.Spans
import QueryWeave.Proofs.Lexeme.Spelling
import QueryWeave.Proofs.Names
import QueryWeave.Proofs.Operation.Landmarks

/-!
# Operations in Parts

An operation is a keyword, perhaps a name and a signature, directives, and a selection set. Its
outline finds all of them, however they are laid out, with one exception: what it takes for the
selection set is what stands between the first brace behind the signature and the mate of that
brace. An object among the arguments of a directive has such a brace too. So the selection set is
found exactly if the directives hold no object.

- `OperationParts`: an operation, as the grammar has it.
- `OperationParts.Landmarks`: what the outline of an operation has found.
- `OperationParts.exists_landmarks`: every operation has an outline, which has found that.
-/

namespace QueryWeave

/-! ## §1 Parts -/

def markBehind (gap : List Char) (mark : Char) : Lexeme :=
  ⟨gap, .punctuator mark, [mark]⟩

def nameBehind (gap : List Char) (name : String) : Lexeme :=
  ⟨gap, .name, name.toList⟩

/-- The parts of an operation that opens with a keyword. This is the operation as the grammar has
it, and not as anything was found in it. -/
structure OperationParts where
  keyword : Lexeme
  name : Option Lexeme
  signature : Option Enclosed
  directives : List Lexeme
  selection : Enclosed

namespace OperationParts

/-- The keyword and the name. -/
def lead (p : OperationParts) : List Lexeme :=
  p.keyword :: p.name.toList

/-- The lexemes of the signature, if there is one. -/
def signatureRow (p : OperationParts) : List Lexeme :=
  (p.signature.map Enclosed.row).getD []

/-- What stands in front of the selection set. -/
def front (p : OperationParts) : List Lexeme :=
  p.lead ++ p.signatureRow ++ p.directives

def row (p : OperationParts) : List Lexeme :=
  p.front ++ p.selection.row

/-- Parts that are what the grammar has in their places. -/
structure WellFormed (p : OperationParts) : Prop where
  keyword : p.keyword.isKeyword = true
  name : ∀ name ∈ p.name, name.kind = .name
  signature : Derives .signature p.signatureRow
  directives : Derives (.directives false) p.directives
  selection : Derives .selectionSet p.selection.row

end OperationParts

/-! ## §2 Objects among values -/

/-- An object, as a value. -/
structure Enclosed.IsObject (e : Enclosed) : Prop where
  opener : e.opener.isMark '{' = true
  members : Derives (.members false) e.inner
  closer : e.closer.isMark '}' = true

/-- Whether the first brace of a row, if it has one, opens an object that stands in the row. It says
where a search for a brace ends that goes through directives. -/
def ObjectFirst (row : List Lexeme) : Prop :=
  (∀ l ∈ row, l.isMark '{' = false) ∨
    ∃ before object after, row = before ++ (Enclosed.row object ++ after) ∧ object.IsObject ∧
      ∀ l ∈ before, l.isMark '{' = false

theorem ObjectFirst.append {first second : List Lexeme} (hfirst : ObjectFirst first)
    (hsecond : ObjectFirst second) : ObjectFirst (first ++ second) := by
  rcases hfirst with hnone | ⟨before, object, after, rfl, hobject, hbefore⟩
  · rcases hsecond with hnone' | ⟨before, object, after, rfl, hobject, hbefore⟩
    · exact .inl (List.forall_mem_append.2 ⟨hnone, hnone'⟩)
    · refine .inr ⟨first ++ before, object, after, by simp, hobject, ?_⟩
      exact List.forall_mem_append.2 ⟨hnone, hbefore⟩
  · exact .inr ⟨before, object, after ++ second, by simp, hobject, hbefore⟩

theorem ObjectFirst.cons {l : Lexeme} {row : List Lexeme} (hl : l.isMark '{' = false)
    (hrow : ObjectFirst row) : ObjectFirst (l :: row) :=
  @ObjectFirst.append [l] row (.inl (by simpa using hl)) hrow

/-- Whether a phrase is of values that may hold variables. -/
def Phrase.ofValues : Phrase → Bool
  | .value false | .values false | .members false | .arguments false | .directives false => true
  | _ => false

/-- Among values, a brace opens an object. -/
theorem Derives.objectFirst {phrase : Phrase} {row : List Lexeme} (h : Derives phrase row)
    (hphrase : phrase.ofValues = true) : ObjectFirst row := by
  have hmark : ∀ {l : Lexeme} {mark : Char}, l.isMark mark = true → mark ≠ '{' →
      l.isMark '{' = false := fun hl hne => by
    simp [Lexeme.isMark, Lexeme.isMark_iff.1 hl, hne]
  have hnil : ObjectFirst [] := .inl (by simp)
  induction h with
  | literal h =>
    refine .cons ?_ hnil
    rcases h with h | h | h <;> simp [Lexeme.isMark, h]
  | variableUse h => exact .cons (by simp [Lexeme.isMark, h]) hnil
  | @list constant opener closer items hopener hitems hcloser ih =>
    cases constant
    · exact .append (.cons (hmark hopener (by decide)) (ih rfl))
        (.cons (hmark hcloser (by decide)) hnil)
    · cases hphrase
  | @object constant opener closer items hopener hitems hcloser ih =>
    -- This is the object
    cases constant
    · exact .inr ⟨[], ⟨opener, items, closer⟩, [], by simp [Enclosed.row],
        ⟨hopener, hitems, hcloser⟩, by simp⟩
    · cases hphrase
  | @valuesCons constant _ _ _ _ ihItem ihItems =>
    cases constant
    · exact (ihItem rfl).append (ihItems rfl)
    · cases hphrase
  | @membersCons constant _ _ _ _ hname hcolon _ _ ihItem ihItems =>
    cases constant
    · refine .append (.cons (by simp [Lexeme.isMark, hname]) (.cons ?_ (ihItem rfl))) (ihItems rfl)
      exact hmark hcolon (by decide)
    · cases hphrase
  | @arguments constant _ _ _ hopener _ _ hcloser ih =>
    cases constant
    · exact .append (.cons (hmark hopener (by decide)) (ih rfl))
        (.cons (hmark hcloser (by decide)) hnil)
    · cases hphrase
  | @directivesCons constant _ _ _ _ hsign hname _ _ ihArguments ihOthers =>
    cases constant
    · refine .append (.cons (hmark hsign (by decide)) (.cons ?_ (ihArguments rfl))) (ihOthers rfl)
      simp [Lexeme.isMark, hname]
    · cases hphrase
  | valuesNil | membersNil | noArguments | directivesNil => exact hnil
  | _ => cases hphrase

/-! ## §3 Brackets of the parts -/

/-- Helper: the brackets of a part are the first and the last of its lexemes. -/
private theorem Enclosed.eq_of_row {e : Enclosed} {opener closer : Lexeme} {inner : List Lexeme}
    (h : e.row = opener :: inner ++ [closer]) : e = ⟨opener, inner, closer⟩ := by
  obtain ⟨first, between, last⟩ := e
  simp only [Enclosed.row, List.cons_append, List.cons.injEq] at h
  obtain ⟨rfl, hrest⟩ := h
  obtain ⟨rfl, hlast⟩ := List.append_inj' hrest rfl
  obtain rfl := List.singleton_injective hlast
  rfl

theorem Enclosed.IsObject.closed {e : Enclosed} (h : e.IsObject) : e.Closed '{' :=
  ⟨h.opener, h.members.orderly.balanced, by simp [Lexeme.closes, h.closer]⟩

/-- Braces around the selections of a selection set are mates. -/
theorem Derives.closed_selection {e : Enclosed} (h : Derives .selectionSet e.row) :
    e.Closed '{' := by
  generalize hrow : e.row = row at h
  cases h with
  | selectionSet hopener hselections _ hcloser =>
    obtain rfl := Enclosed.eq_of_row hrow
    exact ⟨hopener, hselections.orderly.balanced, by simp [Lexeme.closes, hcloser]⟩

/-- Parentheses around a signature are mates. -/
theorem Derives.closed_signature {e : Enclosed} (h : Derives .signature e.row) :
    e.Closed '(' := by
  -- The signature is a list of definitions, or the request
  generalize hrow : e.row = row at h
  cases h with
  | noSignature => simp [Enclosed.row] at hrow
  | signature hopener hdefinitions _ hcloser =>
    obtain rfl := Enclosed.eq_of_row hrow
    exact ⟨hopener, hdefinitions.orderly.balanced, by simp [Lexeme.closes, hcloser]⟩
  | @autodeclare opener sign name closer hopener hsign hname _ hcloser =>
    obtain rfl := @Enclosed.eq_of_row e opener closer [sign, name] hrow
    refine ⟨hopener, ?_, by simp [Lexeme.closes, hcloser]⟩
    have hplain := (Lexeme.plain_of_isName hname).orderly.balanced
    apply hplain.cons
    · simp [Lexeme.opens, Lexeme.isMark, Lexeme.isMark_iff.1 hsign]
    · simp [Lexeme.closes, Lexeme.isMark, Lexeme.isMark_iff.1 hsign]

/-! ## §4 Where an outline finds its parts

An outline is cut at the first brace behind the signature. If no brace stands among the directives,
that is the brace of the selection set; otherwise it opens an object there. -/

namespace Outline

/-- The signature of an outline stands where it says. -/
theorem extent_signature (o : Outline) :
    Span.extent (Lexeme.spansBehind o.lead o.signatureRow) = o.signatureSpan := by
  unfold signatureRow signatureSpan
  cases o.signature with
  | none => exact Lexeme.extent_spansBehind_nil _
  | some e => exact Lexeme.extent_spansBehind _ e.opener (e.inner ++ [e.closer])

/-- The selection set of an outline stands where it says, its closing brace being one byte long. -/
theorem extent_selection {source : String} {o : Outline} (ho : ofText? source = some o) :
    Span.extent (Lexeme.spansBehind (o.lead ++ o.signatureRow ++ o.middle) o.selection.row) =
      some ⟨o.selectionOpen, o.selectionClose + 1⟩ := by
  obtain ⟨hscan, hparted⟩ := parted_of_ofScan? ho
  have hspells : Lexeme.Spells o.scan.lexemes o.scan.trailer := by
    rw [hscan]
    exact (spells_scan source.toList).1
  -- Every bracket is one byte
  have hcloser : byteLength o.selection.closer.text = 1 := by
    have hmem : o.selection.closer ∈ o.scan.lexemes := by simp [lexemes_eq]
    rcases Lexeme.closes_iff.1 hparted.selection.closer with hkind | hkind | hkind <;>
      simp [hspells.text_of_isMark hmem (Lexeme.isMark_iff.2 hkind), byteLength, Char.utf8Size]
  have hextent := Lexeme.extent_spansBehind (o.lead ++ o.signatureRow ++ o.middle)
    o.selection.opener (o.selection.inner ++ [o.selection.closer])
  rw [show o.selection.row = o.selection.opener :: (o.selection.inner ++ [o.selection.closer]) from
    rfl, hextent]
  simp [selectionOpen, selectionClose, selectionChars, Lexeme.spanText, Lexeme.charsOf,
    Lexeme.chars, hcloser, Nat.add_assoc]

end Outline

namespace OperationParts

variable {source : String} {p : OperationParts}

/-- An operation of these parts, cut behind its signature in another way. -/
def outlineAt (p : OperationParts) (middle : List Lexeme) (selection : Enclosed)
    (after : List Lexeme) (trailer : List Char) : Outline :=
  ⟨p.lead, p.name.map Lexeme.word, p.signature, middle, selection, after, trailer⟩

theorem WellFormed.closed_signature (hwell : p.WellFormed) : ∀ e ∈ p.signature, e.Closed '(' := by
  intro e he
  have hderives := hwell.signature
  rw [signatureRow, show p.signature = some e from he] at hderives
  exact hderives.closed_signature

/-- In front of anything but a name, keyword and name are told apart from the rest. -/
theorem cutLead_lead (hwell : p.WellFormed) {next : Lexeme} (hnext : next.isName = false)
    (more : List Lexeme) :
    cutLead (p.lead ++ next :: more) = (p.lead, p.name.map Lexeme.word, next :: more) := by
  cases hp : p.name with
  | some name =>
    have hisName := Lexeme.isName_iff.2 (hwell.name name hp)
    simp [lead, hp, cutLead, hwell.keyword, hisName]
  | none => simp [lead, hp, cutLead, hwell.keyword, hnext]

/-- The outline of an operation is cut at the first brace behind the signature. Where that brace
stands, and whether it opens the selection set, is left open. -/
theorem ofText?_eq (hwell : p.WellFormed) (hrow : (scanText source).lexemes = p.row)
    {middle after : List Lexeme} {selection : Enclosed}
    (hcut : p.directives ++ p.selection.row = middle ++ selection.row ++ after)
    (hmiddle : ∀ l ∈ middle, l.isMark '{' = false) (hselection : selection.Closed '{') :
    Outline.ofText? source =
      some (p.outlineAt middle selection after (scanText source).trailer) := by
  have hname : ∀ {l : Lexeme} {mark : Char}, l.isMark mark = true → l.isName = false :=
    fun hl => by simp [Lexeme.isName, Lexeme.isMark_iff.1 hl]
  obtain ⟨first, rest, hbehind, hfirst⟩ := behind_signature hwell.directives hwell.selection
  -- Behind the lead stands a parenthesis, or an at sign or a brace
  have hnext : ∃ next more, p.signatureRow ++ (first :: rest) = next :: more ∧
      next.isName = false := by
    unfold signatureRow
    cases hs : p.signature with
    | none => exact ⟨first, rest, rfl, hfirst.elim hname hname⟩
    | some e => exact ⟨e.opener, _, rfl, hname (hwell.closed_signature e hs).opener⟩
  have hlead : cutLead (p.lead ++ (p.signatureRow ++ (first :: rest))) =
      (p.lead, p.name.map Lexeme.word, p.signatureRow ++ (first :: rest)) := by
    obtain ⟨next, more, heq, hnext⟩ := hnext
    rw [heq, cutLead_lead hwell hnext]
  have hscan : scanText source = (p.outlineAt middle selection after
      (scanText source).trailer).scan := by
    have hlexemes : p.row = p.lead ++ p.signatureRow ++ (middle ++ selection.row ++ after) := by
      rw [← hcut, row, front]
      simp
    rw [hlexemes] at hrow
    simp only [Outline.scan, outlineAt, Outline.signatureRow]
    rw [← List.append_assoc, ← List.append_assoc] at hrow
    exact congrArg (Scan.mk · (scanText source).trailer) hrow
  rw [Outline.ofText?, hscan]
  rw [hbehind] at hcut
  apply Outline.ofScan?_of_parted ⟨hwell.closed_signature, hmiddle, hselection⟩
  · simpa only [outlineAt, Outline.signatureRow, signatureRow, ← hcut] using hlead
  · intro _
    simp only [outlineAt, ← hcut]
    rcases hfirst with hmark | hmark <;> simp [Lexeme.isMark, Lexeme.isMark_iff.1 hmark]

/-! ## §5 Landmarks -/

/-- The names of the variables in a row, in the order in which they stand there. -/
def variablesIn (row : List Lexeme) : List String :=
  (row.filter Lexeme.isVariable).map Lexeme.variableName

/-- What an outline has taken for the selection set: where it begins and ends, and which variables
it references. -/
structure Selects (o : Outline) (front : List Lexeme) (selection : Enclosed) : Prop where
  extent : Span.extent (Lexeme.spansBehind front selection.row) =
    some ⟨o.selectionOpen, o.selectionClose + 1⟩
  referenced : Names.FirstSeen (variablesIn selection.row) o.referencedVariables

/-- What the outline of an operation has found. Name and signature are found in any case. The
selection set is not, if an object stands among the directives: then the outline has taken the first
such object for it. -/
structure Landmarks (source : String) (p : OperationParts) (o : Outline) : Prop where
  outline : Outline.ofText? source = some o
  name : o.name = p.name.map Lexeme.word
  signature : o.signatureSpan = Span.extent (Lexeme.spansBehind p.lead p.signatureRow)
  /-- The selection set is found exactly if no brace stands among the directives. -/
  selection : Selects o p.front p.selection ↔ ∀ l ∈ p.directives, l.isMark '{' = false
  /-- Otherwise the first object among the directives is taken for it. -/
  object : (∃ l ∈ p.directives, l.isMark '{' = true) →
    ∃ before object after, p.directives = before ++ (Enclosed.row object ++ after) ∧
      object.IsObject ∧ (∀ l ∈ before, l.isMark '{' = false) ∧
      Selects o (p.lead ++ p.signatureRow ++ before) object

/-- Helper: an outline selects what it was cut at. -/
private theorem selects_outlineAt {middle after : List Lexeme} {selection : Enclosed}
    (ho : Outline.ofText? source =
      some (p.outlineAt middle selection after (scanText source).trailer)) :
    Selects (p.outlineAt middle selection after (scanText source).trailer)
      (p.lead ++ p.signatureRow ++ middle) selection :=
  ⟨Outline.extent_selection ho, Names.firstSeen_distinct _⟩

/-- Helper: an object among the directives begins in front of the selection set. -/
private theorem byteLength_before (hrow : (scanText source).lexemes = p.row)
    {before after : List Lexeme} {object : Enclosed}
    (hsplit : p.directives = before ++ (object.row ++ after)) (hobject : object.IsObject) :
    byteLength (Lexeme.charsOf (p.lead ++ p.signatureRow ++ before) ++ object.opener.gap) <
      byteLength (Lexeme.charsOf p.front ++ p.selection.opener.gap) := by
  have hspells := (spells_scan source.toList).1
  have hmem : object.opener ∈ (scanText source).lexemes := by
    simp [hrow, row, front, hsplit, Enclosed.row]
  -- The brace of the object takes up a byte, and stands among the directives
  have htext : object.opener.text = ['{'] := hspells.text_of_isMark hmem hobject.opener
  have hfront : p.front = (p.lead ++ p.signatureRow ++ before) ++
      (object.opener :: (object.inner ++ [object.closer] ++ after)) := by
    simp [front, hsplit, Enclosed.row]
  have hbrace : byteLength ['{'] = 1 := by decide
  simp only [hfront, Lexeme.charsOf_append, Lexeme.charsOf_cons, byteLength_append, htext]
  omega

/-- **Every operation has an outline**, which has found its name and its signature, and the
selection set exactly if no object stands among the arguments of its directives.

The operation may be laid out in any way: gaps, comments and commas are part of the lexemes. -/
theorem exists_landmarks (hwell : p.WellFormed) (hrow : (scanText source).lexemes = p.row) :
    ∃ o, Landmarks source p o := by
  rcases hwell.directives.objectFirst rfl with hnone | ⟨before, object, after, hsplit, hobject,
    hbefore⟩
  · -- The first brace is that of the selection set
    have ho := @ofText?_eq _ _ hwell hrow p.directives [] p.selection (by simp) hnone
      hwell.selection.closed_selection
    refine ⟨_, ho, rfl, (Outline.extent_signature _).symm, ?_, ?_⟩
    · exact ⟨fun _ => hnone, fun _ => selects_outlineAt ho⟩
    · rintro ⟨l, hl, hbrace⟩
      rw [hnone l hl] at hbrace
      cases hbrace
  · -- The first brace opens an object
    have hcut : p.directives ++ p.selection.row =
        before ++ object.row ++ (after ++ p.selection.row) := by
      simp [hsplit]
    have ho := ofText?_eq hwell hrow hcut hbefore hobject.closed
    have hselects := selects_outlineAt ho
    refine ⟨_, ho, rfl, (Outline.extent_signature _).symm, ⟨fun hreal => ?_, fun hnone => ?_⟩, ?_⟩
    · -- Which begins in front of the selection set
      have hlt := byteLength_before hrow hsplit hobject
      have hextent := hreal.extent.trans hselects.extent.symm
      rw [show p.selection.row = p.selection.opener ::
          (p.selection.inner ++ [p.selection.closer]) from rfl,
        show object.row = object.opener :: (object.inner ++ [object.closer]) from rfl,
        Lexeme.extent_spansBehind, Lexeme.extent_spansBehind] at hextent
      injection hextent with hspan
      have hstart := congrArg Span.start hspan
      dsimp only at hstart
      omega
    · have hopener := hnone object.opener (by simp [hsplit, Enclosed.row])
      rw [hobject.opener] at hopener
      cases hopener
    · exact fun _ => ⟨before, object, after, hsplit, hobject, hbefore, hselects⟩

/-! ## §6 An object in front of the selection set -/

/-- An operation with an object among the arguments of a directive. -/
def objectArgument : String :=
  "query (@autodeclare) @show(if: {a: 1}) {post(id: $postId)}"

/-- Its parts. -/
def partsOfObjectArgument : OperationParts where
  keyword := nameBehind [] "query"
  name := none
  signature := some ⟨markBehind [' '] '(', [markBehind [] '@', nameBehind [] "autodeclare"],
    markBehind [] ')'⟩
  directives := [markBehind [' '] '@', nameBehind [] "show", markBehind [] '(', nameBehind [] "if",
    markBehind [] ':', markBehind [' '] '{', nameBehind [] "a", markBehind [] ':',
    ⟨[' '], .other, ['1']⟩, markBehind [] '}', markBehind [] ')']
  selection := ⟨markBehind [' '] '{', [nameBehind [] "post", markBehind [] '(', nameBehind [] "id",
    markBehind [] ':', ⟨[' '], .variable, "$postId".toList⟩, markBehind [] ')'],
    markBehind [] '}'⟩

private theorem wellFormed_objectArgument : partsOfObjectArgument.WellFormed where
  keyword := by decide
  name := by simp [partsOfObjectArgument]
  signature := .autodeclare rfl rfl rfl (by decide) rfl
  directives := by
    -- From the inside: the number, the object around it, and the argument
    have hmembers : Derives (.members false) [nameBehind [] "a", markBehind [] ':',
        ⟨[' '], .other, ['1']⟩] :=
      .membersCons rfl rfl (.literal (.inr (.inl rfl))) .membersNil
    have hobject : Derives (.value false) [markBehind [' '] '{', nameBehind [] "a",
        markBehind [] ':', ⟨[' '], .other, ['1']⟩, markBehind [] '}'] :=
      .object rfl hmembers rfl
    have hmember : Derives (.members false) [nameBehind [] "if", markBehind [] ':',
        markBehind [' '] '{', nameBehind [] "a", markBehind [] ':', ⟨[' '], .other, ['1']⟩,
        markBehind [] '}'] :=
      .membersCons rfl rfl hobject .membersNil
    exact .directivesCons rfl rfl (.arguments rfl hmember (by simp) rfl) .directivesNil
  selection := by
    have hmember : Derives (.members false) [nameBehind [] "id", markBehind [] ':',
        ⟨[' '], .variable, "$postId".toList⟩] :=
      .membersCons rfl rfl (.variableUse rfl) .membersNil
    have harguments : Derives (.arguments false) [markBehind [] '(', nameBehind [] "id",
        markBehind [] ':', ⟨[' '], .variable, "$postId".toList⟩, markBehind [] ')'] :=
      .arguments rfl hmember (by simp) rfl
    have hfield : Derives .field [nameBehind [] "post", markBehind [] '(', nameBehind [] "id",
        markBehind [] ':', ⟨[' '], .variable, "$postId".toList⟩, markBehind [] ')'] :=
      .field rfl harguments .directivesNil .noSubselection
    exact .selectionSet rfl (.selectionsCons (.bareField hfield) .selectionsNil) (by decide) rfl

theorem landmarks_objectArgument : partsOfObjectArgument.WellFormed ∧
    (scanText objectArgument).lexemes = partsOfObjectArgument.row ∧
      ∃ o, Landmarks objectArgument partsOfObjectArgument o :=
  have hrow : (scanText objectArgument).lexemes = partsOfObjectArgument.row := by decide +kernel
  ⟨wellFormed_objectArgument, hrow, exists_landmarks wellFormed_objectArgument hrow⟩

/-- The selection set stands at the bytes 39 to 58 and references a variable. What is found stands
at the bytes 31 to 37 and references none. -/
theorem not_selects_objectArgument :
    partsOfObjectArgument.WellFormed ∧
      (scanText objectArgument).lexemes = partsOfObjectArgument.row ∧
      Span.extent (Lexeme.spansBehind partsOfObjectArgument.front
        partsOfObjectArgument.selection.row) = some ⟨39, 58⟩ ∧
      variablesIn partsOfObjectArgument.selection.row = ["postId"] ∧
      ∃ o, Outline.ofText? objectArgument = some o ∧ o.selectionOpen = 31 ∧
        o.selectionClose = 36 ∧ o.referencedVariables = [] := by
  refine ⟨wellFormed_objectArgument, by decide +kernel, by decide +kernel, by decide +kernel, ?_⟩
  -- These are the braces of the argument, not those of the selection set
  have hfound : (Outline.ofText? objectArgument).map (fun o =>
      (o.selectionOpen, o.selectionClose, o.referencedVariables)) = some (31, 36, []) := by
    decide +kernel
  obtain ⟨o, ho, heq⟩ := Option.map_eq_some_iff.1 hfound
  simp only [Prod.mk.injEq] at heq
  exact ⟨o, ho, heq⟩

end OperationParts

end QueryWeave
