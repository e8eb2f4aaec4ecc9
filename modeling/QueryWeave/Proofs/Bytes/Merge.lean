import QueryWeave.Batch.Session
import QueryWeave.Proofs.Bytes.Compile
import QueryWeave.Proofs.Bytes.Selection

/-!
# Merging by Offsets

An operation is merged in four passes over texts: it is compiled, its fragments are isolated, its
selections are cut out between their braces, and they are aliased. Each pass finds its offsets in
the text that the pass before it has made.

- `isolate?_eq`: the copies of the fragments.
- `weave?_eq`: the entry.
- `merge?_eq`: the batch.
-/

namespace QueryWeave.Bytes

/-! ## §1 Isolated fragments -/

def addFragment? (aliasName : String) (known : EntryFragments) (f : Fragment) :
    Option EntryFragments := do
  let body := f.body.toList
  let tokens ← tokenize? body
  let referenced ← addVariables? body known.referenced tokens
  let sites ← findSpreads? body tokens
  if tokens.any (fun t => t.kind = .variable) ||
      sites.any (fun site => site.path ∈ known.copied) then
    let name := entryName aliasName f.flatName
    let copy ← renameFrom? body tokens aliasName known.copied 0 0 tokens
    return {
      definitions := known.definitions.put name (Fragment.define name (String.ofList copy))
      copied := Names.add known.copied f.flatName
      referenced }
  else
    return {
      definitions := known.definitions.put f.flatName f.definition
      copied := known.copied
      referenced }

/-- Add the fragments under several names to those of an entry. -/
def isolateFrom? (lib : Library) (aliasName : String) (known : EntryFragments) :
    List String → Option (Except CompileError EntryFragments)
  | [] => some (.ok known)
  | name :: rest =>
    match lib.lookup name with
    | .error e => some (.error e)
    | .ok f => do isolateFrom? lib aliasName (← addFragment? aliasName known f) rest

theorem any_variable_tokensOf (offset : Nat) (row : List Lexeme) :
    (tokensOf offset row).any (fun t => t.kind = .variable) =
      !((row.filter Lexeme.isVariable).map Lexeme.variableName).isEmpty := by
  induction row generalizing offset with
  | nil => rfl
  | cons l rest ih =>
    rw [tokensOf_cons, List.any_cons, ih]
    by_cases hvariable : l.kind = .variable <;> simp [Lexeme.isVariable, hvariable]

/-- The walk through a whole body gives the body of the copy. -/
theorem copyBody?_eq (body aliasName : String) (copied : List String) :
    renameFrom? body.toList (tokensOf 0 (scanText body).lexemes) aliasName copied 0 0
        (tokensOf 0 (scanText body).lexemes) =
      some (copyBody aliasName copied body).toList := by
  rw [copyBody, String.toList_ofList]
  exact renameFrom?_eq (Walk.start body.toList) aliasName copied

/-- **A fragment is added by slices that exist.** -/
theorem addFragment?_eq (aliasName : String) (known : EntryFragments) (f : Fragment) :
    addFragment? aliasName known f = some (known.add aliasName f) := by
  have hread : ReadAt f.body.toList 0 f.row (scanText f.body).trailer := readAt_scan f.body.toList
  have htokens : tokenize? f.body.toList = some (tokensOf 0 f.row) := tokenize?_eq _
  have hsites : findSpreads? f.body.toList (tokensOf 0 f.row) = some (spreadSites f.row) :=
    findSpreads?_eq hread
  have hcopy : renameFrom? f.body.toList (tokensOf 0 f.row) aliasName known.copied 0 0
      (tokensOf 0 f.row) = some (copyBody aliasName known.copied f.body).toList :=
    copyBody?_eq f.body aliasName known.copied
  have hpaths : (spreadSites f.row).any (fun site => site.path ∈ known.copied) =
      f.spreadPaths.any (· ∈ known.copied) := by
    rw [Fragment.spreadPaths, ← map_path_spreadSites, List.any_map]
    rfl
  -- Each of the four passes over the tokens gives what the pass over the lexemes gives
  simp only [addFragment?, htokens, addVariables?_eq hread, hsites, hcopy, any_variable_tokensOf,
    hpaths, Option.bind_eq_bind, Option.bind_some, EntryFragments.add, String.ofList_toList]
  split <;> rfl

/-- **The fragments of an entry are isolated by slices that exist.** -/
theorem isolateFrom?_eq (lib : Library) (aliasName : String) (known : EntryFragments)
    (names : List String) :
    isolateFrom? lib aliasName known names =
      some ((names.mapM lib.lookup).map fun fragments =>
        fragments.foldl (EntryFragments.add aliasName) known) := by
  induction names generalizing known with
  | nil => rfl
  | cons name rest ih =>
    rw [isolateFrom?, List.mapM_cons]
    cases lib.lookup name with
    | error e => rfl
    | ok f =>
      simp only [addFragment?_eq, ih, Option.bind_eq_bind, Option.bind_some]
      -- The rest is isolated behind the first fragment, whether or not all of it is found
      cases rest.mapM lib.lookup <;> rfl

theorem isolate?_eq (lib : Library) (aliasName : String) (names : List String) :
    isolateFrom? lib aliasName .empty names = some (lib.isolate aliasName names) := by
  rw [isolateFrom?_eq, Library.isolate]
  cases names.mapM lib.lookup <;> rfl

/-! ## §2 The entry -/

/-- The entry of an operation that is compiled already. Its text is read once more, since
compilation has moved the landmarks: only the offsets in the compiled text count here. -/
def ofCompiled? (lib : Library) (ticket : Nat) (aliasName batchKey : String) (compiled : Compiled)
    (values : JsonObject) : Option (Except ClientError Entry) := do
  let operation := compiled.operation.toList
  match ← parseHeader? operation with
  | none => return .error (.compile (.unbalancedTemplate compiled.operation))
  | some header =>
    match ← isolateFrom? lib aliasName .empty compiled.fragmentNames with
    | .error e => return .error (.compile e)
    | .ok fragments =>
      let inner ← slice? operation ⟨header.selectionOpen + 1, header.selectionClose⟩
      match ← aliasSelections? aliasName fragments.copied (Text.dropBlank inner) with
      | none => return .error (.topLevelFragment aliasName batchKey)
      | some (selection, fields) =>
        let referenced ← addVariables? operation [] header.selectionTokens
        return .ok {
          ticket, aliasName, batchKey, fields
          declarations := compiled.declarations.map (Declaration.toEntry aliasName)
          defaulted := (compiled.declarations.filter (·.defaultText.isSome)).map Declaration.name
          fragments := fragments.definitions
          referenced := Names.addAll referenced fragments.referenced
          selection := String.ofList (Entry.endLine selection)
          supplied := stripModifiers values }

def weave? (lib : Library) (ticket : Nat) (aliasName batchKey : String) (template : Template)
    (values : JsonObject) : Option (Except ClientError Entry) := do
  match ← compile? lib template values true with
  | .error e => return .error (.compile e)
  | .ok compiled => ofCompiled? lib ticket aliasName batchKey compiled values

/-- The selections are what stands between the braces. Both braces are one byte long, so the slice
begins one behind the first and ends with the second. -/
theorem slice?_selection {source : String} {o : Outline} (h : Outline.ofText? source = some o) :
    slice? source.toList ⟨o.selectionOpen + 1, o.selectionClose⟩ = some o.selectionChars := by
  obtain ⟨hscan, hparted⟩ := Outline.parted_of_ofScan? h
  have hbrace : o.selection.opener.text = ['{'] :=
    (readAt_outline h).spelled.text_of_isMark (by simp [Enclosed.row]) hparted.selection.opener
  have hone : byteLength ['{'] = 1 := by decide
  -- The opening brace is one byte long, so the selections begin one byte behind it
  have htext : source.toList =
      (Lexeme.charsOf (o.lead ++ o.signatureRow ++ o.middle) ++ o.selection.opener.chars) ++
        (o.selectionChars ++ (o.selection.closer.text ++ Lexeme.charsOf o.after ++ o.trailer)) := by
    rw [toList_eq_outline h]
    simp [Enclosed.row, Outline.selectionChars, Lexeme.chars]
  have hafter := after?_of_split _ _ (after?_zero source.toList) htext rfl
  have hopen : 0 + byteLength (Lexeme.charsOf (o.lead ++ o.signatureRow ++ o.middle) ++
      o.selection.opener.chars) = o.selectionOpen + 1 := by
    simp [Outline.selectionOpen, Lexeme.chars, hbrace, hone, Nat.add_assoc]
  rw [hopen] at hafter
  refine slice?_of_split _ _ hafter rfl ?_
  rw [← hopen]
  simp [Outline.selectionClose, Nat.add_assoc]

theorem ofCompiled?_eq (lib : Library) (ticket : Nat) (aliasName batchKey : String)
    (compiled : Compiled) (values : JsonObject) :
    ofCompiled? lib ticket aliasName batchKey compiled values =
      some (Entry.ofCompiled lib ticket aliasName batchKey compiled values) := by
  rw [ofCompiled?, parseHeader?_eq, Entry.ofCompiled]
  simp only [Option.bind_eq_bind, Option.bind_some, isolate?_eq]
  cases houtline : Outline.ofText? compiled.operation with
  | none => rfl
  | some o =>
    -- The slice between the braces exists, and is what the entry copies from
    have hinner : slice? compiled.operation.toList
        ⟨(headerOf o).selectionOpen + 1, (headerOf o).selectionClose⟩ = some o.selectionChars :=
      slice?_selection houtline
    simp only [Option.map_some]
    cases lib.isolate aliasName compiled.fragmentNames with
    | error e => rfl
    | ok fragments =>
      simp only [hinner, aliasSelections?_eq, referencedVariables?_eq houtline, Option.bind_some,
        Except.mapError]
      dsimp only [bind, Except.bind]
      cases aliasSelections aliasName fragments.copied (Text.dropBlank o.selectionChars) <;> rfl

/-- **An entry is woven by slices that exist, and is the entry of the template.** -/
theorem weave?_eq (lib : Library) (ticket : Nat) (aliasName batchKey : String) (template : Template)
    (values : JsonObject) :
    weave? lib ticket aliasName batchKey template values =
      some (Entry.weave lib ticket aliasName batchKey template values) := by
  rw [weave?, compile?_eq, Entry.weave]
  simp only [Option.bind_eq_bind, Option.bind_some, ofCompiled?_eq]
  cases lib.compile template values true <;> rfl

def merge? (s : Session) (lib : Library) (batchKey : String) (template : Template)
    (values : JsonObject) : Option (Session × Except ClientError Nat) := do
  let (code, codes) := s.codes.draw
  match ← weave? lib s.issued (aliasOfCode code) batchKey template values with
  | .error e => return ({ s with codes }, .error e)
  | .ok entry =>
    return ({ s with
        codes
        waiting := s.waiting.put batchKey (s.entriesUnder batchKey ++ [entry])
        issued := s.issued + 1 },
      .ok s.issued)

/-- **Merging takes only slices that exist.** -/
theorem merge?_eq (s : Session) (lib : Library) (batchKey : String) (template : Template)
    (values : JsonObject) :
    merge? s lib batchKey template values = some (s.merge lib batchKey template values) := by
  simp only [merge?, weave?_eq, Session.merge, Option.bind_eq_bind, Option.bind_some]
  cases Entry.weave lib s.issued (aliasOfCode s.codes.draw.1) batchKey template values <;> rfl

/-! ## §3 No access out of range -/

/-- What has a result exactly if the range that it takes is in order, within the text or row, and
begins and ends where characters do. This is what makes a result worth anything: a slice that would
stop the program has none. -/
structure CheckedAccess : Prop where
  slice : ∀ source span, (slice? source span).isSome ↔
    span.start ≤ span.stop ∧ span.stop ≤ byteLength source ∧
      IsBoundary source span.start ∧ IsBoundary source span.stop
  rest : ∀ source offset, (after? source offset).isSome ↔ IsBoundary source offset
  range : ∀ {α : Type} (row : List α) start stop,
    (range? row start stop).isSome ↔ start ≤ stop ∧ stop ≤ row.length
  replaced : ∀ source span replacement,
    (replaceRange? source span replacement).isSome ↔ (slice? source span).isSome
  inserted : ∀ source offset insertion,
    (insertAt? source offset insertion).isSome ↔ IsBoundary source offset

/-- Whatever is done to a text by offsets has a result, and it is the one found without offsets. A
slice out of range, or one that cuts a character in two, would be a result that is missing. -/
structure TextInRange (source : String) : Prop where
  tokens : tokenize? source.toList = some (tokensOf 0 (scanText source).lexemes)
  spreads : spreadSites? source.toList = some (spreadSites (scanText source).lexemes)
  header : parseHeader? source.toList = some ((Outline.ofText? source).map headerOf)
  /-- Declarations are read among any tokens that stand together. -/
  declarations : ∀ front row rest, (scanText source).lexemes = front ++ (row ++ rest) →
    readList? source.toList (tokensOf (byteLength (Lexeme.charsOf front)) row) =
      some (Declaration.readList row)
  copy : ∀ aliasName copied,
    renameFrom? source.toList (tokensOf 0 (scanText source).lexemes) aliasName copied 0 0
        (tokensOf 0 (scanText source).lexemes) =
      some (copyBody aliasName copied source).toList
  selections : ∀ aliasName copied, aliasSelections? aliasName copied source.toList =
    some (aliasSelections aliasName copied source.toList)

/-- Whatever is done with the fragments of a library by offsets has a result, and it is the one
found without offsets. Texts that were just written are sliced as well, not only those given from
outside. -/
structure LibraryInRange (lib : Library) : Prop where
  register : ∀ path body, register? lib path body = some (lib.register path body)
  resolve : ∀ text, resolve? lib text = some (lib.resolve text)
  compile : ∀ template values whenAbsent,
    compile? lib template values whenAbsent = some (lib.compile template values whenAbsent)
  isolate : ∀ aliasName names,
    isolateFrom? lib aliasName .empty names = some (lib.isolate aliasName names)
  weave : ∀ ticket aliasName batchKey template values,
    weave? lib ticket aliasName batchKey template values =
      some (Entry.weave lib ticket aliasName batchKey template values)
  merge : ∀ (s : Session) batchKey template values,
    merge? s lib batchKey template values = some (s.merge lib batchKey template values)

/-- **No text and no library makes any of the passes take what is not there.**

All passes over texts are covered: the lexer, the search for spreads, the landmarks of an operation,
the entries of a signature, the registration of a body, the resolution of a text, filling in a
signature, copying a fragment and aliasing a selection set. Each of them is written with slices that
can fail, is proved not to fail, and gives what the definitions without offsets give. -/
theorem access_in_range :
    CheckedAccess ∧ (∀ source, TextInRange source) ∧ ∀ lib, LibraryInRange lib := by
  refine ⟨?_, fun source => ?_, fun lib => ?_⟩
  · constructor
    case slice => exact fun _ _ => slice?_isSome_iff
    case rest => exact fun _ _ => after?_isSome_iff
    case range => exact fun _ _ _ => range?_isSome_iff
    case replaced => exact fun _ _ _ => replaceRange?_isSome_iff
    case inserted => exact fun _ _ _ => insertAt?_isSome_iff
  · constructor
    case tokens => exact tokenize?_eq source.toList
    case spreads => exact spreadSites?_eq source.toList
    case header => exact parseHeader?_eq source
    case declarations =>
      intro front row rest hrow
      -- Declarations are read in the middle of a text, so the row is followed to where it begins
      have hread : ReadAt source.toList 0 (scanText source).lexemes (scanText source).trailer :=
        readAt_scan source.toList
      rw [hrow] at hread
      have hpart := hread.append.2.append.1
      rw [Nat.zero_add] at hpart
      exact readList?_eq hpart
    case copy => exact copyBody?_eq source
    case selections => exact fun aliasName copied => aliasSelections?_eq aliasName copied _
  · constructor
    case register => exact register?_eq lib
    case resolve => exact resolve?_eq lib
    case compile => exact compile?_eq lib
    case isolate => exact isolate?_eq lib
    case weave => exact weave?_eq lib
    case merge => exact fun s => merge?_eq s lib

end QueryWeave.Bytes
