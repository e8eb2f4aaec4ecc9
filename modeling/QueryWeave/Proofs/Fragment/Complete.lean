import QueryWeave.Proofs.Fragment.History
import QueryWeave.Proofs.Lexeme.Joined
import QueryWeave.Proofs.Operation.Brackets
import QueryWeave.Proofs.Operation.Declared

/-!
# Complete Bodies

A fragment body is to have the form `on <Type> {...}`: a type condition, directives, and a selection
set that nests and ends the body. A library looks at the type condition only. Whatever else is
missing is missing in every document that the body is put into: its definition nests exactly if
the body does, and a string that the body leaves open takes in what is appended behind it. With
complete bodies, the tokens of a document are those of the operation and of each definition, and
the definitions nest.

- `CompleteBody`: bodies of the form that is asked for.
- `Outline.not_leftOpen_declare`: operations with nothing behind their selection set end outside of
  strings.
- `Library.completenessLaws_run`: which bodies are refused, and what becomes of the others.
-/

namespace QueryWeave

/-! ## §1 Complete bodies -/

/-- A string that is ended by its closing quotes, rather than by a line feed or by nothing. -/
def Lexeme.Terminated (l : Lexeme) : Prop :=
  l.Whole ∧ l.text.getLast? = some '"'

/-- The parts of a fragment body, as the form `on Type {...}` names them, with directives in front
of the selection set. -/
structure BodyParts where
  on : Lexeme
  typeName : Lexeme
  directives : List Lexeme
  selection : Enclosed

namespace BodyParts

def row (p : BodyParts) : List Lexeme :=
  p.on :: p.typeName :: (p.directives ++ p.selection.row)

/-- Parts of the form that is asked for. -/
structure Formed (p : BodyParts) : Prop where
  on : p.on.kind = .name ∧ p.on.text = ['o', 'n']
  typeName : p.typeName.kind = .name
  directives : Derives (.directives false) p.directives
  selection : p.selection.Nests '{' '}'
  strings : ∀ l ∈ p.selection.row, l.kind = .stringValue → l.Terminated

end BodyParts

/-- A body of the form `on <Type> {...}`: a type condition, directives, and a selection set. The
selection set is closed by the brace that mates with the one it opens with, nothing stands behind
it, and every string in it has its end. -/
def CompleteBody (body : String) : Prop :=
  ∃ p : BodyParts, (scanText body).lexemes = p.row ∧ p.Formed

/-- A text that ends with a closing bracket is not left open. -/
theorem not_leftOpen_of_closer {text : String} (front : List Lexeme) {closer : Lexeme}
    (hrow : (scanText text).lexemes = front ++ [closer]) (hcloses : closer.closes = true) :
    ¬LeftOpen text := by
  apply not_leftOpen_of_getLast?
  intro l hl
  rw [hrow, List.getLast?_concat] at hl
  cases hl
  rcases Lexeme.closes_iff.1 hcloses with hkind | hkind | hkind <;> simp [hkind]

namespace CompleteBody

variable {body : String}

theorem condition (h : CompleteBody body) : beginsWithCondition (scanText body).lexemes = true := by
  obtain ⟨p, hrow, hformed⟩ := h
  simp [hrow, BodyParts.row, beginsWithCondition, Lexeme.isName, hformed.on, hformed.typeName]

/-- The brackets of a complete body nest. -/
theorem nested (h : CompleteBody body) : Nested Lexeme.mates (scanText body).lexemes := by
  obtain ⟨p, hrow, hformed⟩ := h
  have hon := Lexeme.plain_of_isName hformed.on.1
  have htype := Lexeme.plain_of_isName hformed.typeName
  have hselection : Nested Lexeme.mates p.selection.row := by
    apply hformed.selection.inner.enclose
    simp [Lexeme.mates, hformed.selection.opener, hformed.selection.closer]
  rw [hrow]
  exact .plain hon.1 hon.2.1 (.plain htype.1 htype.2.1
    (hformed.directives.orderly.nested.append hselection))

/-- A complete body ends with a brace. -/
theorem not_leftOpen (h : CompleteBody body) : ¬LeftOpen body := by
  obtain ⟨p, hrow, hformed⟩ := h
  have hcloses : p.selection.closer.closes = true := by
    simp [Lexeme.closes, hformed.selection.closer]
  refine not_leftOpen_of_closer (p.on :: p.typeName ::
    (p.directives ++ p.selection.opener :: p.selection.inner)) ?_ hcloses
  simp [hrow, BodyParts.row, Enclosed.row]

end CompleteBody

/-! ## §2 Definitions of bodies -/

/-- Helper: no string stands in a path. -/
private theorem not_string_of_path {l : Lexeme} (h : l.kind = .name ∨ l.kind = .punctuator '.') :
    decide (l.kind = .stringValue) = false := by
  rcases h with hkind | hkind <;> simp [hkind]

/-- Of the lexemes of a body, those of a sort that no name and no path holds stand in its definition
as they stand in the body. -/
theorem Fragment.filter_definition {sort : Lexeme → Bool}
    (hsort : ∀ l : Lexeme, l.kind = .name ∨ l.kind = .punctuator '.' → sort l = false)
    {pair : String × String} (hname : IsName (stored pair).flatName.toList)
    (hcondition : beginsWithCondition (scanText pair.2).lexemes = true) :
    (scanText (stored pair).definition).lexemes.filter sort =
      (scanText pair.2).lexemes.filter sort := by
  have hskip : ∀ l : Lexeme, l.kind = .name → ∀ row, (l :: row).filter sort = row.filter sort :=
    fun l hl row => List.filter_cons_of_neg (by simp [hsort l (.inl hl)])
  obtain ⟨on, typeName, rest, hrow, hon, -⟩ := exists_of_beginsWithCondition hcondition
  obtain ⟨later, hlater⟩ := @respread_head Spread.flattened on (typeName :: rest)
  have hstored : (scanText (stored pair).body).lexemes = on :: later := by
    rw [scanText_stored, hrow, hlater]
  have hkept : later.filter sort = (scanText pair.2).lexemes.filter sort := by
    have hkind : ∀ s : Spread, beginsPath s.head = true → s.head.kind = .name :=
      fun s => kind_of_beginsPath
    rw [← hskip on hon, ← hlater, hrow]
    exact @filter_respread sort hsort Spread.flattened hkind _
  -- The names in front, and the gap in front of the body, do not count
  have hindent : ((scanText (stored pair).body).indent [' ']).lexemes =
      { on with gap := ' ' :: on.gap } :: later := by
    unfold Scan.indent
    rw [hstored]
    rfl
  have hnew : ({ on with gap := ' ' :: on.gap } : Lexeme).kind = .name := hon
  rw [definition, scanText_define hname, hindent, hskip _ rfl, hskip _ rfl, hskip _ hnew, hkept]

/-- What the definition of a body has of the body's brackets and strings. The definition adds
`fragment` and a name in front, which open nothing; so it is as complete as the body is. -/
structure Defines (body definition : String) : Prop where
  nested : Nested Lexeme.mates (scanText definition).lexemes ↔
    Nested Lexeme.mates (scanText body).lexemes
  leftOpen : LeftOpen definition ↔ LeftOpen body

theorem Fragment.defines_stored {pair : String × String}
    (hname : IsName (stored pair).flatName.toList)
    (hcondition : beginsWithCondition (scanText pair.2).lexemes = true) :
    Defines pair.2 (stored pair).definition where
  nested := by
    rw [← nested_brackets, filter_definition (fun _ => not_isBracket_of_path) hname hcondition,
      nested_brackets]
  leftOpen := by
    apply leftOpen_congr
    exact filter_definition (fun _ => not_string_of_path) hname hcondition

/-! ## §3 Where operations end

A document is an operation and its definitions, joined by line feeds. A text that is left open, by a
block string without an end, reads on in the next one; so what each of them ends with is what
matters. -/

/-- Resolving the spreads of a text leaves it open if it was. -/
theorem Library.leftOpen_resolved {lib : Library} {text : String} {resolved : Resolved}
    (h : lib.resolve text = .ok resolved) : LeftOpen resolved.text ↔ LeftOpen text := by
  apply leftOpen_congr
  rw [lib.scan_resolved h]
  exact filter_respread (fun _ => not_string_of_path) (fun _ _ => rfl) _

namespace Outline

variable {source : String} {o : Outline}

/-- Helper: where a request goes away, what stands behind it is read from the same place. What it is
read as may differ: the keyword may touch it now. -/
private theorem not_leftOpen_removed (ho : ofText? source = some o) (hsource : ¬LeftOpen source)
    {old : Enclosed} (hold : o.signature = some old) :
    ¬LeftOpen (String.ofList (o.replaceSignature old [])) := by
  obtain ⟨⟨hspells, htrailer⟩, hrow⟩ := spells_parts ho
  obtain ⟨hlead, hrest⟩ := Lexeme.spells_append.1 hspells
  have hbehind := (Lexeme.spells_append.1 hrest).2
  have hgap := isGap_dropLastBlank (isGap_signature ho hold)
  have hplain : ∀ l ∈ o.lead, IsGap l.gap ∧ l.Whole ∧ l.kind ≠ .stringValue := fun l hl => by
    have hkind : l.kind ≠ .stringValue := by simp [names_lead ho l hl]
    exact ⟨hlead.isGap l hl, hlead.whole_of_kind l hl hkind, hkind⟩
  have htext : o.replaceSignature old [] =
      Lexeme.charsOf o.lead ++ (dropLastBlank old.opener.gap ++ o.behindSignature) := by
    simp [replaceSignature, signatureChars]
  -- Whether a text is left open is told by a state, which gaps and other lexemes than strings keep
  rw [leftOpen_iff_endsOpen, String.toList_ofList, htext, endsOpen_plain hplain, endsOpen_gap hgap,
    behindSignature, endsOpen_row hbehind htrailer]
  rintro ⟨l, hl, hopen⟩
  refine hsource ⟨l, ?_, hopen⟩
  rw [hrow]
  exact List.mem_append_right _ (List.mem_append_right _ hl)

/-- Whether declarations are inferred for an operation: it requests them, or has no signature and
gets one. -/
def Infers (o : Outline) (whenAbsent : Bool) : Prop :=
  o.signatureKind = .autodeclare ∨ o.signature = none ∧ whenAbsent = true

/-- **An operation with nothing behind its selection set ends outside of strings**, once its
signature is filled in. -/
theorem not_leftOpen_declare (ho : ofText? source = some o) (hafter : o.after = [])
    {values : JsonObject} {whenAbsent : Bool}
    (hkeys : o.Infers whenAbsent → ∀ pair ∈ values, DocumentedKey pair.1) :
    ¬LeftOpen (o.declare source values whenAbsent).text := by
  have hcloses := (parted_of_ofScan? ho).2.selection.closer
  have hsource : ¬LeftOpen source := by
    refine not_leftOpen_of_closer (o.lead ++ (o.signatureRow ++ (o.middle ++
      o.selection.opener :: o.selection.inner))) ?_ hcloses
    rw [(spells_parts ho).2]
    simp [hafter, Enclosed.row]
  unfold declare
  dsimp only
  split
  · rename_i old hold hkind
    have hprintable := printable_inferred ho (hkeys (.inl hkind))
    generalize (infer o.referencedVariables values).declarations = ds at hprintable ⊢
    -- Without declarations the request goes away, and the keyword may touch what is behind it
    by_cases hnil : ds = []
    · rw [hnil]
      exact not_leftOpen_removed ho hsource hold
    · obtain ⟨row, hprinted⟩ := exists_printed hnil (fun d hd => (hprintable d hd).1) isGap_nil
      refine not_leftOpen_of_closer (o.lead ++ (signatureOf old.opener.gap row ++
        (o.middle ++ o.selection.opener :: o.selection.inner))) ?_ hcloses
      rw [scanText, String.toList_ofList, scan_replaceSignature ho hold hnil hprinted]
      simp [hafter, Enclosed.row]
  · exact hsource
  · rename_i hnone
    split
    · rename_i hwhen
      have hprintable := printable_inferred ho (hkeys (.inr ⟨hnone, hwhen⟩))
      generalize (infer o.referencedVariables values).declarations = ds at hprintable ⊢
      by_cases hnil : ds = []
      · rw [hnil, insertSignature_nil ho, String.ofList_toList]
        exact hsource
      · obtain ⟨row, hprinted⟩ := exists_printed hnil (fun d hd => (hprintable d hd).1) isGap_nil
        refine not_leftOpen_of_closer (o.lead ++ o.middle ++
          (signatureOf o.selection.opener.gap row ++
            Lexeme.regap [' '] (o.selection.opener :: o.selection.inner))) ?_ hcloses
        rw [scanText, String.toList_ofList, scan_insertSignature ho hnone hnil hprinted]
        simp [hafter, Enclosed.row, Lexeme.regap]
    · exact hsource

end Outline

/-! ## §4 Laws of registration -/

/-- What is to be expected of a body under a path: it is refused unless it is complete. -/
def Library.RefusesIncomplete (lib : Library) (path body : String) : Prop :=
  ¬CompleteBody body → lib.register path body = .error (.malformedFragment path body)

namespace Library

/-- A body is refused as malformed for its type condition only. -/
theorem register_eq_malformed_iff (lib : Library) (path body other text : String) :
    lib.register path body = .error (.malformedFragment other text) ↔
      (other = path ∧ text = body) ∧ beginsWithCondition (scanText body).lexemes = false := by
  unfold register
  dsimp only
  cases hcondition : beginsWithCondition (scanText body).lexemes with
  | false => simp [eq_comm]
  | true =>
    simp only [Bool.not_true, Bool.false_eq_true, if_false, reduceCtorEq, and_false, iff_false]
    split
    · split <;> simp
    · simp

theorem refusesIncomplete_iff (lib : Library) (path body : String) :
    lib.RefusesIncomplete path body ↔
      (beginsWithCondition (scanText body).lexemes = true → CompleteBody body) := by
  rw [RefusesIncomplete, register_eq_malformed_iff]
  constructor
  · intro hrefuses hcondition
    -- An incomplete body with a condition would be stored, which a refusal excludes
    by_contra hincomplete
    simp [hcondition] at hrefuses
    exact hincomplete hrefuses
  · intro hcomplete hincomplete
    exact ⟨⟨rfl, rfl⟩, by simpa using mt hcomplete hincomplete⟩

variable {lib : Library} {accepted : List (String × String)}

/-- Every definition that a compiled operation brings along is that of a body accepted last for its
path. -/
theorem History.defines (h : lib.History accepted) {template : Template} {values : JsonObject}
    {whenAbsent : Bool} {compiled : Compiled}
    (hcompile : lib.compile template values whenAbsent = .ok compiled) :
    List.Forall₂ (fun name definition => ∃ pair ∈ Bindings.collapse accepted,
      flattenPath pair.1 = name ∧ Defines pair.2 definition)
      compiled.fragmentNames compiled.fragments := by
  obtain ⟨o, resolved, -, hresolve, hdefinitions, -, -, hnames⟩ := compile_inversion hcompile
  obtain ⟨-, horder, -⟩ := dependenciesFirst_of_resolve hresolve
  rw [hnames]
  refine ((List.forall₂_and_left _ _).2
    ⟨horder.fragment, forall₂_definitions hdefinitions⟩).imp fun name definition hfound => ?_
  -- The listed name and the definition stand for one fragment, which was stored at some call
  obtain ⟨⟨g, hg, hname, hspread, -⟩, f, hfind, rfl⟩ := hfound
  rw [hfind] at hg
  cases hg
  have hf := lib.mem_of_find? hfind
  rw [h.represents.fragments] at hf
  obtain ⟨pair, hpair, rfl⟩ := List.mem_map.1 hf
  refine ⟨pair, hpair, hname, Fragment.defines_stored (hname ▸ hspread.1) ?_⟩
  exact h.condition pair (Bindings.mem_of_mem_collapse hpair)

/-- Helper: every definition is that of a body, whatever its name is. -/
private theorem exists_defines {bodies : Bindings String} {names definitions : List String}
    (h : List.Forall₂ (fun name definition => ∃ pair ∈ bodies,
      flattenPath pair.1 = name ∧ Defines pair.2 definition) names definitions)
    {definition : String} (hdefinition : definition ∈ definitions) :
    ∃ pair ∈ bodies, Defines pair.2 definition := by
  induction h with
  | nil => cases hdefinition
  | cons hfirst _ ih =>
    rcases List.mem_cons.1 hdefinition with rfl | hrest
    · obtain ⟨pair, hpair, -, hdefines⟩ := hfirst
      exact ⟨pair, hpair, hdefines⟩
    · exact ih hrest

/-- How bodies are registered by a library that has accepted bodies, and what becomes of them. The
first three laws say what is refused, and what would have to be. The others follow a body that is
left open into the documents: it takes what stands behind it along. -/
structure CompletenessLaws (lib : Library) (accepted : List (String × String)) : Prop where
  /-- A body is refused as malformed exactly if it does not begin with its type condition. The error
  names the path and the body. -/
  refused : ∀ path body other text,
    lib.register path body = .error (.malformedFragment other text) ↔
      (other = path ∧ text = body) ∧ beginsWithCondition (scanText body).lexemes = false
  /-- A complete body is not refused as malformed. -/
  complete : ∀ path body, CompleteBody body →
    ∀ other text, lib.register path body ≠ .error (.malformedFragment other text)
  /-- So the expectation is met exactly by the bodies that are complete if they begin with a type
  condition. -/
  expected : ∀ path body, lib.RefusesIncomplete path body ↔
    (beginsWithCondition (scanText body).lexemes = true → CompleteBody body)
  /-- Every definition appended to an operation is that of a body accepted last for its path. It
  nests and is left open exactly if the body does and is. -/
  definitions : ∀ template values whenAbsent compiled,
    lib.compile template values whenAbsent = .ok compiled →
      List.Forall₂ (fun name definition => ∃ pair ∈ Bindings.collapse accepted,
        flattenPath pair.1 = name ∧ Defines pair.2 definition)
        compiled.fragmentNames compiled.fragments
  /-- The tokens of a document are those of the operation and of each definition exactly if none of
  them is left open, the last one apart. -/
  tokens : ∀ template values whenAbsent compiled,
    lib.compile template values whenAbsent = .ok compiled →
      (tokensOf compiled.document = (compiled.operation :: compiled.fragments).flatMap tokensOf ↔
        ∀ text ∈ (compiled.operation :: compiled.fragments).dropLast, ¬LeftOpen text)
  /-- An operation with nothing behind its selection set is not left open. -/
  operation : ∀ template values whenAbsent compiled o,
    lib.compile template values whenAbsent = .ok compiled →
      Outline.ofText? template.source = some o → o.after = [] →
        (o.Infers whenAbsent → ∀ pair ∈ values, DocumentedKey pair.1) →
          ¬LeftOpen compiled.operation
  /-- So documents are what they look like if all bodies are complete. -/
  documents : (∀ pair ∈ Bindings.collapse accepted, CompleteBody pair.2) →
    ∀ template values whenAbsent compiled o,
      lib.compile template values whenAbsent = .ok compiled →
        Outline.ofText? template.source = some o → o.after = [] →
          (o.Infers whenAbsent → ∀ pair ∈ values, DocumentedKey pair.1) →
            tokensOf compiled.document =
                (compiled.operation :: compiled.fragments).flatMap tokensOf ∧
              ∀ definition ∈ compiled.fragments, Nested Lexeme.mates (scanText definition).lexemes

/-- **After any calls, a library refuses a body for its type condition only**, and what is
incomplete about a body is incomplete about the documents that it is put into. -/
theorem completenessLaws_run (calls : List RegistryCall) :
    CompletenessLaws (Library.empty.run calls) (Library.empty.accepted calls) := by
  have hhistory : History (Library.empty.run calls) (Library.empty.accepted calls) := by
    simpa using History.empty.run calls
  -- Only the history of the library matters from here on
  generalize Library.empty.run calls = lib at hhistory
  generalize Library.empty.accepted calls = accepted at hhistory
  have htokens : ∀ compiled : Compiled,
      (tokensOf compiled.document = (compiled.operation :: compiled.fragments).flatMap tokensOf ↔
        ∀ text ∈ (compiled.operation :: compiled.fragments).dropLast, ¬LeftOpen text) :=
    fun compiled => tokens_joined_iff _
  have hoperation : ∀ template values whenAbsent compiled o,
      lib.compile template values whenAbsent = .ok compiled →
        Outline.ofText? template.source = some o → o.after = [] →
          (o.Infers whenAbsent → ∀ pair ∈ values, DocumentedKey pair.1) →
            ¬LeftOpen compiled.operation := by
    intro template values whenAbsent compiled o hcompile ho hafter hkeys
    obtain ⟨other, resolved, hother, hresolve, -, -, hresolved, -⟩ := compile_inversion hcompile
    rw [ho] at hother
    cases hother
    rw [hresolved, leftOpen_resolved hresolve]
    exact Outline.not_leftOpen_declare ho hafter hkeys
  constructor
  case refused => exact lib.register_eq_malformed_iff
  case complete =>
    intro path body hbody other text hregister
    have hcondition := ((lib.register_eq_malformed_iff path body other text).1 hregister).2
    simp [hbody.condition] at hcondition
  case expected => exact lib.refusesIncomplete_iff
  case definitions => exact fun _ _ _ _ hcompile => hhistory.defines hcompile
  case tokens => exact fun _ _ _ compiled _ => htokens compiled
  case operation => exact hoperation
  case documents =>
    intro hcomplete template values whenAbsent compiled o hcompile ho hafter hkeys
    -- Complete bodies make definitions that nest, and leave no string open
    have hdefinitions : ∀ definition ∈ compiled.fragments,
        Nested Lexeme.mates (scanText definition).lexemes ∧ ¬LeftOpen definition := by
      intro definition hdefinition
      obtain ⟨pair, hpair, hdefines⟩ := exists_defines (hhistory.defines hcompile) hdefinition
      have hbody := hcomplete pair hpair
      exact ⟨hdefines.nested.2 hbody.nested, hdefines.leftOpen.not.2 hbody.not_leftOpen⟩
    refine ⟨(htokens compiled).2 fun text htext => ?_, fun definition hdefinition =>
      (hdefinitions definition hdefinition).1⟩
    rcases List.mem_cons.1 (List.dropLast_subset _ htext) with rfl | htext
    · exact hoperation template values whenAbsent compiled o hcompile ho hafter hkeys
    · exact (hdefinitions text htext).2

end Library

/-- A body whose brace is never closed. -/
theorem Library.not_refusesIncomplete_openBrace :
    ¬Library.empty.RefusesIncomplete "card" "on Card \x7bid" := by
  intro hrefuses
  have hopen : ¬Nested Lexeme.mates (scanText "on Card \x7bid").lexemes := by decide +kernel
  have hcondition : beginsWithCondition (scanText "on Card \x7bid").lexemes = true := by
    decide +kernel
  have hmalformed := hrefuses fun hcomplete => hopen hcomplete.nested
  have hnone := ((Library.empty.register_eq_malformed_iff _ _ _ _).1 hmalformed).2
  rw [hcondition] at hnone
  cases hnone

end QueryWeave
