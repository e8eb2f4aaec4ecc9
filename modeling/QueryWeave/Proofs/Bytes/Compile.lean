import QueryWeave.Operation.Compile
import QueryWeave.Proofs.Bytes.Declaration
import QueryWeave.Proofs.Bytes.Fragments

/-!
# Compilation by Offsets

The signature of an operation is filled in by changing the text in place: the range of a signature
is replaced, or a signature is inserted where the selection set opens.

- `declare?_eq`: both changes are made at offsets that exist.
- `compile?_eq`: compilation by offsets has a result, and it is the compiled operation.
-/

namespace QueryWeave.Bytes

/-! ## §1 Changes in place -/

/-- A text with a range of bytes replaced. -/
def replaceRange? (source : List Char) (span : Span) (replacement : List Char) :
    Option (List Char) := do
  let front ← slice? source ⟨0, span.start⟩
  let _replaced ← slice? source span
  let back ← after? source span.stop
  return front ++ replacement ++ back

/-- A text with an insertion at an offset. -/
def insertAt? (source : List Char) (offset : Nat) (insertion : List Char) : Option (List Char) := do
  let front ← slice? source ⟨0, offset⟩
  let back ← after? source offset
  return front ++ insertion ++ back

/-- The text in front of a boundary can be sliced. -/
theorem exists_slice?_front {source : List Char} {offset : Nat} (h : IsBoundary source offset) :
    ∃ front, slice? source ⟨0, offset⟩ = some front := by
  obtain ⟨front, back, rfl, rfl⟩ := h
  exact ⟨front, slice?_of_split front back (after?_zero _) rfl (Nat.zero_add _)⟩

/-- A range can be replaced exactly if it can be sliced. -/
theorem replaceRange?_isSome_iff {source replacement : List Char} {span : Span} :
    (replaceRange? source span replacement).isSome ↔ (slice? source span).isSome := by
  constructor
  · intro h
    obtain ⟨text, htext⟩ := Option.isSome_iff_exists.1 h
    obtain ⟨front, -, hrest⟩ := Option.bind_eq_some_iff.1 htext
    obtain ⟨part, hpart, -⟩ := Option.bind_eq_some_iff.1 hrest
    exact Option.isSome_iff_exists.2 ⟨part, hpart⟩
  · intro h
    -- Both ends of the range are good, so what stands in front of it and behind it can be sliced
    -- too
    obtain ⟨-, -, hstart, hstop⟩ := slice?_isSome_iff.1 h
    obtain ⟨back, hback⟩ := Option.isSome_iff_exists.1 (after?_isSome_iff.2 hstop)
    obtain ⟨part, hpart⟩ := Option.isSome_iff_exists.1 h
    obtain ⟨front, hfront⟩ := exists_slice?_front hstart
    simp [replaceRange?, hfront, hpart, hback]

/-- A text can be inserted exactly where a character begins or the text ends. -/
theorem insertAt?_isSome_iff {source insertion : List Char} {offset : Nat} :
    (insertAt? source offset insertion).isSome ↔ IsBoundary source offset := by
  rw [← after?_isSome_iff]
  constructor
  · intro h
    obtain ⟨text, htext⟩ := Option.isSome_iff_exists.1 h
    obtain ⟨front, -, hrest⟩ := Option.bind_eq_some_iff.1 htext
    obtain ⟨back, hback, -⟩ := Option.bind_eq_some_iff.1 hrest
    exact Option.isSome_iff_exists.2 ⟨back, hback⟩
  · intro h
    obtain ⟨back, hback⟩ := Option.isSome_iff_exists.1 h
    -- Where the rest of a text begins, the front of it ends
    obtain ⟨front, hfront⟩ := exists_slice?_front (after?_isSome_iff.1 h)
    simp [insertAt?, hfront, hback]

theorem replaceRange?_of_split {source : List Char} {span : Span} (front part back : List Char)
    (h : source = front ++ (part ++ back)) (hstart : byteLength front = span.start)
    (hstop : span.start + byteLength part = span.stop) (replacement : List Char) :
    replaceRange? source span replacement = some (front ++ replacement ++ back) := by
  obtain ⟨start, stop⟩ := span
  have hzero : after? source 0 = some source := after?_zero source
  have hfront := slice?_of_split front (part ++ back) hzero h (by rw [Nat.zero_add, hstart])
  have hafter := after?_of_split front (part ++ back) hzero h (by rw [Nat.zero_add, hstart])
  have hpart := slice?_of_split part back hafter rfl hstop
  have hback := after?_of_split part back hafter rfl hstop
  simp only [replaceRange?, hfront, hpart, hback, Option.bind_eq_bind, Option.bind_some]
  rfl

theorem insertAt?_of_split {source : List Char} {offset : Nat} (front back : List Char)
    (h : source = front ++ back) (hoffset : byteLength front = offset) (insertion : List Char) :
    insertAt? source offset insertion = some (front ++ insertion ++ back) := by
  have hzero : after? source 0 = some source := after?_zero source
  have hfront := slice?_of_split front back hzero h (by rw [Nat.zero_add, hoffset])
  have hback := after?_of_split front back hzero h (by rw [Nat.zero_add, hoffset])
  simp only [insertAt?, hfront, hback, Option.bind_eq_bind, Option.bind_some]
  rfl

/-! ## §2 Filling in the signature -/

/-- Where the replaced text begins: an empty signature takes the blank in front of it along. The
blank is one byte, so one byte is subtracted. -/
def replaceStart? (source replacement : List Char) (span : Span) : Option Nat :=
  if replacement.isEmpty then do
    let front ← slice? source ⟨0, span.start⟩
    if front.getLast? = some ' ' then
      -- The text in front of the first byte has no last character
      if span.start = 0 then none else return span.start - 1
    else return span.start
  else some span.start

def replaceSignature? (source replacement : List Char) (span : Span) : Option (List Char) := do
  let start ← replaceStart? source replacement span
  replaceRange? source ⟨start, span.stop⟩ replacement

/-- Fill in the signature of an operation by its header. -/
def declare? (source : String) (header : Header) (values : JsonObject) (whenAbsent : Bool) :
    Option Declared :=
  match header.signature, header.signatureSpan with
  | .autodeclare, some span => do
    let names ← addVariables? source.toList [] header.selectionTokens
    let inferred := infer names values
    let text ← replaceSignature? source.toList (signatureChars inferred.declarations) span
    return ⟨String.ofList text, inferred.declarations, inferred.warnings⟩
  | .explicit, _ => do
    let declarations ← readList? source.toList header.signatureTokens
    return ⟨source, declarations, []⟩
  | .absent, _ =>
    if whenAbsent then do
      let names ← addVariables? source.toList [] header.selectionTokens
      let inferred := infer names values
      if inferred.declarations.isEmpty then
        return ⟨source, inferred.declarations, inferred.warnings⟩
      else
        let text ← insertAt? source.toList header.selectionOpen
          (signatureChars inferred.declarations ++ [' '])
        return ⟨String.ofList text, inferred.declarations, inferred.warnings⟩
    else return ⟨source, [], []⟩
  | .autodeclare, none => return ⟨source, [], []⟩

def compile? (lib : Library) (template : Template) (values : JsonObject) (whenAbsent : Bool) :
    Option (Except CompileError Compiled) := do
  match ← parseHeader? template.source.toList with
  | none => return .error (.unbalancedTemplate template.source)
  | some header =>
    let declared ← declare? template.source header values whenAbsent
    match ← resolve? lib declared.text with
    | .error e => return .error e
    | .ok resolved =>
      return (lib.definitions resolved.used).map fun fragments =>
        { kind := template.kind
          name := header.name
          declarations := declared.declarations
          operation := resolved.text
          fragmentNames := resolved.used
          fragments
          warnings := declared.warnings }

/-! ## §3 The text in front of a signature -/

/-- Keyword and name do not end in a blank. -/
theorem getLast?_lead {source : String} {o : Outline} (h : Outline.ofText? source = some o)
    (gap : List Char) :
    (Lexeme.charsOf o.lead ++ gap).getLast? = some ' ' ↔ gap.getLast? = some ' ' := by
  have hspelled := (readAt_outline h).spelled
  simp only [List.append_assoc] at hspelled
  have hlead := (Lexeme.spells_append.1 hspelled).1.getLast?_names (Outline.names_lead h)
  rw [List.getLast?_append]
  cases gap.getLast? with
  | none => simpa using hlead
  | some c => simp

/-! ## §4 Filling in by offsets -/

/-- A text is spelled by its outline. -/
theorem toList_eq_outline {source : String} {o : Outline} (h : Outline.ofText? source = some o) :
    source.toList = Lexeme.charsOf
      (o.lead ++ o.signatureRow ++ o.middle ++ o.selection.row ++ o.after) ++ o.trailer := by
  have hrest := (readAt_outline h).rest
  rw [after?_zero] at hrest
  exact Option.some.inj hrest

/-- A text is what stands in front of its signature, the signature, and what stands behind. -/
theorem toList_eq_signature {source : String} {o : Outline} (h : Outline.ofText? source = some o)
    {e : Enclosed} (he : o.signature = some e) :
    source.toList = (Lexeme.charsOf o.lead ++ e.opener.gap) ++
      (Lexeme.spanText e.row ++ o.behindSignature) := by
  rw [toList_eq_outline h]
  simp [Outline.signatureRow, he, Outline.behindSignature, Enclosed.row, Lexeme.spanText]

/-- A text is what stands in front of its selection set, and the rest. -/
theorem toList_eq_selection {source : String} {o : Outline} (h : Outline.ofText? source = some o) :
    source.toList =
      (Lexeme.charsOf (o.lead ++ o.signatureRow ++ o.middle) ++ o.selection.opener.gap) ++
        (o.selection.opener.text ++
          Lexeme.charsOf (o.selection.inner ++ [o.selection.closer] ++ o.after) ++ o.trailer) := by
  rw [toList_eq_outline h]
  simp [Enclosed.row]

/-- A signature is replaced where it stands. The text in front of its span and the text behind are
sliced out, and both are what the lexemes in front and behind say. -/
theorem replaceSignature?_eq {source : String} {o : Outline} (h : Outline.ofText? source = some o)
    {e : Enclosed} (he : o.signature = some e) {span : Span} (hspan : o.signatureSpan = some span)
    (ds : List Declaration) :
    replaceSignature? source.toList (signatureChars ds) span = some (o.replaceSignature e ds) := by
  have htext := toList_eq_signature h he
  obtain rfl : ⟨byteLength (Lexeme.charsOf o.lead ++ e.opener.gap),
      byteLength (Lexeme.charsOf o.lead ++ e.opener.gap) + byteLength (Lexeme.spanText e.row)⟩ =
        span := by
    rw [Outline.signatureSpan, he] at hspan
    exact Option.some.inj hspan
  have hfront := slice?_of_split _ _ (after?_zero source.toList) htext (Nat.zero_add _)
  unfold replaceSignature? replaceStart?
  cases ds with
  | nil =>
    have hreplacement : signatureChars [] = [] := rfl
    simp only [hreplacement, List.isEmpty_nil, if_true, hfront, Option.bind_eq_bind,
      Option.bind_some, getLast?_lead h, pure, Outline.replaceSignature, dropLastBlank]
    split
    · rename_i hblank
      -- The blank in front is one byte, and goes with the signature
      obtain ⟨gap, hgap⟩ := List.getLast?_eq_some_iff.1 hblank
      have hstart : byteLength (Lexeme.charsOf o.lead ++ (gap ++ [' '])) =
          byteLength (Lexeme.charsOf o.lead ++ gap) + 1 := by
        simp only [byteLength_append, byteLength]
        rfl
      have hone : byteLength (' ' :: Lexeme.spanText e.row) =
          byteLength (Lexeme.spanText e.row) + 1 :=
        Nat.add_comm 1 _
      rw [hgap] at htext ⊢
      rw [List.dropLast_concat, hstart, if_neg (Nat.succ_ne_zero _), Nat.add_sub_cancel]
      refine replaceRange?_of_split (Lexeme.charsOf o.lead ++ gap) (' ' :: Lexeme.spanText e.row) _
        ?_ rfl ?_ []
      · rw [htext]
        simp
      · dsimp only
        omega
    · exact replaceRange?_of_split _ _ _ htext rfl rfl []
  | cons d more =>
    have hreplacement : (signatureChars (d :: more)).isEmpty = false := rfl
    simp only [hreplacement, Bool.false_eq_true, if_false, Option.bind_eq_bind, Option.bind_some]
    exact replaceRange?_of_split _ _ _ htext rfl rfl _

/-- A signature is inserted where the selection set opens. -/
theorem insertSignature?_eq {source : String} {o : Outline} (h : Outline.ofText? source = some o)
    (d : Declaration) (more : List Declaration) :
    insertAt? source.toList o.selectionOpen (signatureChars (d :: more) ++ [' ']) =
      some (o.insertSignature (d :: more)) := by
  refine (insertAt?_of_split _ _ (toList_eq_selection h) rfl _).trans ?_
  simp [Outline.insertSignature]

/-- Without declarations, nothing is inserted. -/
theorem insertSignature_nil {source : String} {o : Outline} (h : Outline.ofText? source = some o) :
    String.ofList (o.insertSignature []) = source := by
  have htext : o.insertSignature [] = source.toList := by
    rw [toList_eq_selection h]
    simp [Outline.insertSignature]
  rw [htext, String.ofList_toList]

/-- The entries of a signature are read where they stand. -/
theorem readSignature_eq {source : String} {o : Outline} (h : Outline.ofText? source = some o)
    {e : Enclosed} (he : o.signature = some e) :
    readList? source.toList (headerOf o).signatureTokens = some (Declaration.readList e.inner) := by
  have htokens : (headerOf o).signatureTokens =
      tokensOf (0 + byteLength (Lexeme.charsOf (o.lead ++ [e.opener]))) e.inner := by
    simp [headerOf, signatureTokens, he]
  have hread := readAt_outline h
  -- The inside of the signature is read where it stands in the source
  have hrow : o.lead ++ o.signatureRow ++ o.middle ++ o.selection.row ++ o.after =
      (o.lead ++ [e.opener]) ++
        (e.inner ++ (e.closer :: (o.middle ++ o.selection.row ++ o.after))) := by
    simp [Outline.signatureRow, he, Enclosed.row]
  rw [hrow] at hread
  rw [htokens]
  exact readList?_eq hread.append.2.append.1

/-- **A signature is filled in at offsets that exist.** There is one case for each kind of
signature; only the one that was requested is replaced, and only one that is missing is inserted. -/
theorem declare?_eq {source : String} {o : Outline} (h : Outline.ofText? source = some o)
    (values : JsonObject) (whenAbsent : Bool) :
    declare? source (headerOf o) values whenAbsent = some (o.declare source values whenAbsent) := by
  have hvariables := referencedVariables?_eq h
  have hopen : (headerOf o).selectionOpen = o.selectionOpen := rfl
  cases he : o.signature with
  | none =>
    have hkind : (headerOf o).signature = .absent := by
      show o.signatureKind = _
      rw [Outline.signatureKind, he]
    simp only [declare?, hkind, Outline.declare, he, hvariables, hopen, Option.bind_eq_bind,
      Option.bind_some, pure]
    split
    · generalize infer o.referencedVariables values = inferred
      cases hds : inferred.declarations with
      | nil => simp [insertSignature_nil h]
      | cons d more => simp [insertSignature?_eq h]
    · rfl
  | some e =>
    have hspan : (headerOf o).signatureSpan =
        some ⟨byteLength (Lexeme.charsOf o.lead ++ e.opener.gap),
          byteLength (Lexeme.charsOf o.lead ++ e.opener.gap) +
            byteLength (Lexeme.spanText e.row)⟩ := by
      show o.signatureSpan = _
      rw [Outline.signatureSpan, he]
      rfl
    have hkind : (headerOf o).signature = o.signatureKind := rfl
    have hreplace := replaceSignature?_eq h he hspan
    simp only [declare?, Outline.declare, he, hkind, hspan, readSignature_eq h he, hvariables]
    cases hsigned : o.signatureKind with
    | absent =>
      -- A signature that is there says something
      rw [Outline.signatureKind, he] at hsigned
      dsimp only at hsigned
      split at hsigned
      · split at hsigned <;> cases hsigned
      · cases hsigned
    | explicit => rfl
    | autodeclare =>
      simp only [hreplace, Option.bind_eq_bind, Option.bind_some]
      rfl

/-- **Compilation by offsets takes only slices that exist, and gives the compiled operation.**
Whatever is proved of `Library.compile` is so proved of a computation that slices the source at
every step. -/
theorem compile?_eq (lib : Library) (template : Template) (values : JsonObject)
    (whenAbsent : Bool) :
    compile? lib template values whenAbsent = some (lib.compile template values whenAbsent) := by
  rw [compile?, parseHeader?_eq, Library.compile]
  simp only [Option.bind_eq_bind, Option.bind_some]
  -- With the parts replaced one by one, both sides branch on the same results
  cases houtline : Outline.ofText? template.source with
  | none => rfl
  | some o =>
    simp only [Option.map_some, declare?_eq houtline, resolve?_eq, Option.bind_some]
    cases lib.resolve (o.declare template.source values whenAbsent).text with
    | error e => rfl
    | ok resolved =>
      show some ((lib.definitions resolved.used).map _) =
        some (bind (lib.definitions resolved.used) _)
      cases lib.definitions resolved.used <;> rfl

end QueryWeave.Bytes
