import QueryWeave.Proofs.Bytes.Spreads
import QueryWeave.Proofs.Operation.Outline

/-!
# Outlines by Offsets

The landmarks of an operation, found in its tokens. A part of the operation is a range of tokens,
from one index to another, and a bracket is a token at an index; texts are sliced out of the source.

- `findClose_eq`: the search for a closing bracket.
- `parseHeader?_eq`: the landmarks are those of the outline.
-/

namespace QueryWeave.Bytes

/-! ## §1 Brackets -/

def Token.opens (t : Token) : Bool :=
  t.isMark '{' || t.isMark '(' || t.isMark '['

def Token.closes (t : Token) : Bool :=
  t.isMark '}' || t.isMark ')' || t.isMark ']'

/-- The index of the token that closes the last of `depth` open brackets, the first token having the
index `idx`. Brackets of all kinds are counted together. -/
def closeFrom (depth idx : Nat) : List Token → Option Nat
  | [] => none
  | t :: rest =>
    if t.opens then closeFrom (depth + 1) (idx + 1) rest
    else if t.closes then
      match depth with
      | 0 => none
      | 1 => some idx
      | deeper + 2 => closeFrom (deeper + 1) (idx + 1) rest
    else closeFrom depth (idx + 1) rest

/-- The index of the token that closes the bracket at an index. -/
def findClose (tokens : List Token) (idx : Nat) : Option Nat :=
  closeFrom 0 idx (tokens.drop idx)

theorem closeFrom_eq (depth idx offset : Nat) (row : List Lexeme) :
    closeFrom depth idx (tokensOf offset row) =
      (closeAt depth row).map fun closed => idx + closed.inner.length := by
  induction row generalizing depth idx offset with
  | nil => rfl
  | cons l rest ih =>
    have hopens : Token.opens ⟨l.kind, l.spanAt offset⟩ = l.opens := rfl
    have hcloses : Token.closes ⟨l.kind, l.spanAt offset⟩ = l.closes := rfl
    -- One lexeme more in front is one index more
    have hstep : ∀ d, closeFrom d (idx + 1) (tokensOf (l.spanAt offset).stop rest) =
        ((closeAt d rest).map (Closed.cons l)).map fun closed => idx + closed.inner.length := by
      intro d
      rw [ih, Option.map_map]
      congr 1
      funext closed
      simp [Closed.cons, Nat.add_comm, Nat.add_left_comm]
    simp only [tokensOf_cons, closeFrom, closeAt, hopens, hcloses]
    split
    · exact hstep _
    · split
      · rcases depth with _ | _ | deeper
        · rfl
        · rfl
        · exact hstep _
      · exact hstep _

/-- The bracket behind a front is closed where the scanner's row says. -/
theorem findClose_eq {offset : Nat} {front more : List Lexeme} {l : Lexeme}
    (hopens : l.opens = true) :
    findClose (tokensOf offset (front ++ l :: more)) front.length =
      (closeAt 1 more).map fun closed => front.length + 1 + closed.inner.length := by
  have hdrop : (tokensOf offset (front ++ l :: more)).drop front.length =
      tokensOf (offset + byteLength (Lexeme.charsOf front)) (l :: more) := by
    rw [tokensOf_append, ← length_tokensOf offset front, List.drop_left]
  rw [findClose, hdrop, closeFrom_eq, closeAt, if_pos hopens, Option.map_map]
  congr 1
  funext closed
  simp [Closed.cons, Nat.add_comm, Nat.add_left_comm]

/-! ## §2 The landmarks

The landmarks are found by walking over the indices of tokens. No part of the source is copied: a
landmark is an offset, and the name is the only text that is sliced. -/

/-- The landmarks of an operation, with the tokens of its signature and of its selection set.
Landmarks are offsets into the source, and tokens are kinds with offsets: whatever is read later is
sliced out of the source. -/
structure Header where
  name : Option String
  selectionOpen : Nat
  selectionClose : Nat
  signature : SignatureKind
  signatureSpan : Option Span
  /-- The tokens strictly inside the parentheses. -/
  signatureTokens : List Token
  /-- The tokens of the selection set, braces included. -/
  selectionTokens : List Token
  deriving Repr, DecidableEq

/-- Whether the tokens of a source begin with an operation keyword. -/
def beginsWithKeyword? (source : List Char) : List Token → Option Bool
  | [] => some false
  | t :: _ =>
    if t.kind = .name then do
      let word := String.ofList (← t.text? source)
      return word = "query" || word = "mutation" || word = "subscription"
    else some false

/-- The name of an operation, and the index behind keyword and name. -/
def readLead? (source : List Char) (tokens : List Token) : Option (Option String × Nat) := do
  if ← beginsWithKeyword? source tokens then
    match tokens[1]? with
    | none => return (none, 1)
    | some t =>
      if t.kind = .name then return (some (String.ofList (← t.text? source)), 2)
      else return (none, 1)
  else return (none, 0)

/-- What the tokens inside a signature say. -/
def signatureKind? (source : List Char) : List Token → Option SignatureKind
  | [at_, name] =>
    if at_.isMark '@' then do
      let word := String.ofList (← name.text? source)
      return if word = "autodeclare" then .autodeclare else .explicit
    else some .explicit
  | _ => some .explicit

/-- A signature as it is found among tokens. -/
structure FoundSignature where
  kind : SignatureKind
  span : Option Span
  tokens : List Token
  /-- The index behind the signature. -/
  next : Nat
  deriving Repr, DecidableEq

/-- The signature at an index, if there is one. The inner result is missing if it is not closed. -/
def readSignature? (source : List Char) (tokens : List Token) (idx : Nat) :
    Option (Option FoundSignature) :=
  if (tokens[idx]?).any (Token.isMark '(') then
    match findClose tokens idx with
    | none => return none
    | some close => do
      let inner ← range? tokens (idx + 1) close
      let kind ← signatureKind? source inner
      let opener ← tokens[idx]?
      let closer ← tokens[close]?
      return some ⟨kind, some ⟨opener.span.start, closer.span.stop⟩, inner, close + 1⟩
  else return some ⟨.absent, none, [], idx⟩

/-- Where the selection set behind an index opens and closes, and its tokens. The inner result is
missing if it is not there or not closed. -/
def readSelection? (tokens : List Token) (idx : Nat) : Option (Option (Nat × Nat × List Token)) :=
  match (tokens.drop idx).findIdx? (Token.isMark '{') with
  | none => return none
  | some ahead =>
    match findClose tokens (idx + ahead) with
    | none => return none
    | some close => do
      let opener ← tokens[idx + ahead]?
      let closer ← tokens[close]?
      let inside ← range? tokens (idx + ahead) (close + 1)
      return some (opener.span.start, closer.span.start, inside)

/-- The landmarks of an operation. The inner result is missing if the operation is not balanced.
Each landmark is looked for behind the one before it, by its index among the tokens. -/
def parseHeader? (source : List Char) : Option (Option Header) := do
  let tokens ← tokenize? source
  let (name, behindLead) ← readLead? source tokens
  match ← readSignature? source tokens behindLead with
  | none => return none
  | some signature =>
    match ← readSelection? tokens signature.next with
    | none => return none
    | some (opening, closing, inside) =>
      return some ⟨name, opening, closing, signature.kind, signature.span, signature.tokens, inside⟩

/-! ## §3 The landmarks are those of the outline -/

section

variable {source behind : List Char} {front rest : List Lexeme}

/-- The token at an index. -/
theorem getElem?_tokensOf (offset : Nat) (front : List Lexeme) (l : Lexeme) (rest : List Lexeme) :
    (tokensOf offset (front ++ l :: rest))[front.length]? =
      some ⟨l.kind, l.spanAt (offset + byteLength (Lexeme.charsOf front))⟩ := by
  rw [tokensOf_append, List.getElem?_append_right (by simp), tokensOf_cons]
  simp

/-- Whether the token at an index is a mark. -/
theorem any_isMark_tokensOf (offset : Nat) (mark : Char) (front rest : List Lexeme) :
    ((tokensOf offset (front ++ rest))[front.length]?).any (Token.isMark mark) =
      rest.head?.any (Lexeme.isMark mark) := by
  cases rest with
  | nil => simp
  | cons l more =>
    rw [getElem?_tokensOf]
    rfl

/-- Whether the token one further is a mark. -/
theorem any_isMark_next (offset : Nat) (mark : Char) (front : List Lexeme) (l : Lexeme)
    (rest : List Lexeme) :
    ((tokensOf offset (front ++ l :: rest))[front.length + 1]?).any (Token.isMark mark) =
      rest.head?.any (Lexeme.isMark mark) := by
  rw [List.append_cons, ← any_isMark_tokensOf offset mark (front ++ [l]), List.length_append]
  rfl

/-- The tokens behind an index. -/
theorem drop_tokensOf (offset : Nat) (front rest : List Lexeme) :
    (tokensOf offset (front ++ rest)).drop front.length =
      tokensOf (offset + byteLength (Lexeme.charsOf front)) rest := by
  rw [tokensOf_append, ← length_tokensOf offset front, List.drop_left]

/-- The token behind an opened part. -/
theorem getElem?_closer (offset : Nat) (front : List Lexeme) (l : Lexeme) (inner : List Lexeme)
    (closer : Lexeme) (rest : List Lexeme) :
    (tokensOf offset (front ++ l :: (inner ++ closer :: rest)))[front.length + 1 + inner.length]? =
      some ⟨closer.kind,
        closer.spanAt (offset + byteLength (Lexeme.charsOf (front ++ l :: inner)))⟩ := by
  have hcloser := getElem?_tokensOf offset (front ++ l :: inner) closer rest
  have hindex : (front ++ l :: inner).length = front.length + 1 + inner.length := by
    simp only [List.length_append, List.length_cons]
    omega
  rwa [hindex, List.append_assoc, List.cons_append] at hcloser

theorem findIdx?_tokensOf (offset : Nat) (mark : Char) (row : List Lexeme) :
    (tokensOf offset row).findIdx? (Token.isMark mark) = row.findIdx? (Lexeme.isMark mark) := by
  induction row generalizing offset with
  | nil => rfl
  | cons l rest ih =>
    rw [tokensOf_cons, List.findIdx?_cons, List.findIdx?_cons, ih]
    rfl

/-- The tokens of a part of a row, by the indices of the part. -/
theorem range?_tokensOf {offset start stop : Nat} {row : List Lexeme}
    (front part back : List Lexeme)
    (hrow : row = front ++ (part ++ back)) (hstart : front.length = start)
    (hstop : start + part.length = stop) :
    range? (tokensOf offset row) start stop =
      some (tokensOf (offset + byteLength (Lexeme.charsOf front)) part) := by
  subst hrow
  rw [tokensOf_append, tokensOf_append]
  exact range?_of_split _ _ _ rfl (by simpa using hstart) (by simpa using hstop)

theorem readLead?_eq {row : List Lexeme} (h : ReadAt source 0 row behind) :
    readLead? source (tokensOf 0 row) = some ((cutLead row).2.1, (cutLead row).1.length) := by
  cases row with
  | nil => rfl
  | cons keyword rest =>
    have hkeyword : beginsWithKeyword? source (tokensOf 0 (keyword :: rest)) =
        some keyword.isKeyword := by
      simp only [tokensOf_cons, beginsWithKeyword?, text?_eq h, Lexeme.isKeyword, Lexeme.isName]
      by_cases hname : keyword.kind = .name
      · simp only [hname, if_true, decide_true, Bool.true_and]
        rfl
      · simp [hname]
    -- The name, if there is one, is the token at index one
    simp only [readLead?, hkeyword, cutLead, Option.bind_eq_bind, Option.bind_some]
    split
    · cases rest with
      | nil => rfl
      | cons name more =>
        simp only [tokensOf_cons, List.getElem?_cons_succ, List.getElem?_cons_zero, text?_eq h.next,
          Lexeme.isName]
        by_cases hname : name.kind = .name <;> simp [hname, Lexeme.word]
    · rfl

/-- What the lexemes inside a signature say. -/
def kindOfInner : List Lexeme → SignatureKind
  | [at_, name] => if at_.isMark '@' && name.word = "autodeclare" then .autodeclare else .explicit
  | _ => .explicit

theorem signatureKind?_eq {offset : Nat} {inner : List Lexeme}
    (h : ReadAt source offset inner behind) :
    signatureKind? source (tokensOf offset inner) = some (kindOfInner inner) := by
  -- Only a signature of two tokens can be a request, and only then is a text looked at
  match inner, h with
  | [], _ => rfl
  | [_], _ => rfl
  | [at_, name], h =>
    have hat : Token.isMark '@' ⟨at_.kind, at_.spanAt offset⟩ = at_.isMark '@' := rfl
    simp only [tokensOf_cons, tokensOf_nil, signatureKind?, hat, text?_eq h.next, kindOfInner]
    by_cases hmark : at_.isMark '@' = true
    · by_cases hword : String.ofList name.text = "autodeclare" <;> simp [hmark, Lexeme.word, hword]
    · simp [hmark]
  | _ :: _ :: _ :: _, _ => rfl

/-- A signature as it is found behind a front. -/
def foundSignature (front : List Lexeme) : Option Enclosed → FoundSignature
  | none => ⟨.absent, none, [], front.length⟩
  | some e =>
    let start := byteLength (Lexeme.charsOf front ++ e.opener.gap)
    ⟨kindOfInner e.inner, some ⟨start, start + byteLength (Lexeme.spanText e.row)⟩,
      tokensOf (byteLength (Lexeme.charsOf (front ++ [e.opener]))) e.inner,
      front.length + e.row.length⟩

theorem readSignature?_eq (h : ReadAt source 0 (front ++ rest) behind) :
    readSignature? source (tokensOf 0 (front ++ rest)) front.length =
      some ((cutSignature rest).map fun cut => foundSignature front cut.1) := by
  rw [readSignature?, any_isMark_tokensOf]
  cases rest with
  | nil => rfl
  | cons l more =>
    have hopener := getElem?_tokensOf 0 front l more
    have hhead : (l :: more).head?.any (Lexeme.isMark '(') = l.isMark '(' := rfl
    rw [hhead, cutSignature]
    by_cases hparen : l.isMark '(' = true
    · rw [if_pos hparen, if_pos hparen]
      have hopens : l.opens = true := by simp [Lexeme.opens, hparen]
      rw [findClose_eq hopens]
      cases hclose : closeAt 1 more with
      | none => rfl
      | some closed =>
        -- The row goes on with the inner part, the closing bracket and the rest
        obtain rfl : closed.inner ++ closed.closer :: closed.rest = more := row_of_closeAt hclose
        have hrow : front ++ l :: (closed.inner ++ closed.closer :: closed.rest) =
            (front ++ [l]) ++ (closed.inner ++ closed.closer :: closed.rest) := by simp
        have hinner : range?
            (tokensOf 0 (front ++ l :: (closed.inner ++ closed.closer :: closed.rest)))
            (front.length + 1) (front.length + 1 + closed.inner.length) =
            some (tokensOf (0 + byteLength (Lexeme.charsOf (front ++ [l]))) closed.inner) :=
          range?_tokensOf _ _ _ hrow (by simp) rfl
        rw [hrow] at h
        have hkind := signatureKind?_eq h.append.2.append.1
        simp only [Option.map_some, hinner, hkind, hopener, getElem?_closer, Option.bind_eq_bind,
          Option.bind_some]
        simp only [foundSignature, Lexeme.spanAt, Enclosed.row, Lexeme.spanText, Nat.zero_add]
        simp [Nat.add_assoc, Nat.add_comm 1]
    · rw [if_neg hparen, if_neg hparen]
      rfl

/-- Where a selection set is found behind a front. -/
def foundSelection (front middle : List Lexeme) (e : Enclosed) : Nat × Nat × List Token :=
  (byteLength (Lexeme.charsOf (front ++ middle) ++ e.opener.gap),
    byteLength (Lexeme.charsOf (front ++ middle) ++ e.opener.chars ++
      (Lexeme.charsOf e.inner ++ e.closer.gap)),
    tokensOf (byteLength (Lexeme.charsOf (front ++ middle))) e.row)

/-- In front of the first mark stand the lexemes that are none. -/
theorem findIdx?_isMark (mark : Char) (row : List Lexeme) :
    row.findIdx? (Lexeme.isMark mark) =
      (row.dropWhile fun l => !l.isMark mark).head?.map fun _ =>
        (row.takeWhile fun l => !l.isMark mark).length := by
  induction row with
  | nil => rfl
  | cons l rest ih =>
    by_cases hmark : l.isMark mark = true
    · simp [List.findIdx?_cons, hmark]
    · simp [List.findIdx?_cons, hmark, ih, Function.comp_def]

/-- The tokens of an opened part, both brackets included. -/
theorem range?_enclosed (offset : Nat) (front : List Lexeme) (opener : Lexeme) (inner : List Lexeme)
    (closer : Lexeme) (rest : List Lexeme) :
    range? (tokensOf offset (front ++ opener :: (inner ++ closer :: rest))) front.length
        (front.length + 1 + inner.length + 1) =
      some (tokensOf (offset + byteLength (Lexeme.charsOf front))
        (Enclosed.row ⟨opener, inner, closer⟩)) := by
  refine range?_tokensOf front (Enclosed.row ⟨opener, inner, closer⟩) rest ?_ rfl ?_
  · simp [Enclosed.row]
  · simp only [Enclosed.row, List.length_append, List.length_cons, List.length_nil]
    omega

theorem readSelection?_eq (front rest : List Lexeme) :
    readSelection? (tokensOf 0 (front ++ rest)) front.length =
      some ((cutSelection rest).map fun cut => foundSelection front cut.1 cut.2.1) := by
  have happend := @List.takeWhile_append_dropWhile _ (fun l => !Lexeme.isMark '{' l) rest
  rw [readSelection?, drop_tokensOf, findIdx?_tokensOf, findIdx?_isMark, cutSelection]
  generalize rest.takeWhile (fun l => !l.isMark '{') = middle at happend ⊢
  cases hopener : rest.dropWhile fun l => !l.isMark '{' with
  | nil => rfl
  | cons opener more =>
    -- The search stops at the first brace
    have hbrace : opener.isMark '{' = true := by
      have hhead := List.head?_dropWhile_not (fun l => !l.isMark '{') rest
      rw [hopener] at hhead
      simpa using hhead
    have hopens : opener.opens = true := by simp [Lexeme.opens, hbrace]
    rw [hopener] at happend
    subst happend
    -- From there the mate of the brace is looked for by tokens, and by lexemes
    have hclose := @findClose_eq 0 (front ++ middle) more opener hopens
    rw [List.append_assoc, List.length_append] at hclose
    dsimp only [List.head?_cons, Option.map_some]
    rw [hclose]
    cases hclosed : closeAt 1 more with
    | none => rfl
    | some closed =>
      obtain rfl : closed.inner ++ closed.closer :: closed.rest = more := row_of_closeAt hclosed
      have hopen := getElem?_tokensOf 0 (front ++ middle) opener
        (closed.inner ++ closed.closer :: closed.rest)
      have hcloser := getElem?_closer 0 (front ++ middle) opener closed.inner
        closed.closer closed.rest
      have hinside := range?_enclosed 0 (front ++ middle) opener closed.inner
        closed.closer closed.rest
      rw [List.append_assoc, List.length_append] at hopen hcloser hinside
      simp only [Option.map_some, hopen, hcloser, hinside, Option.bind_eq_bind, Option.bind_some]
      simp only [foundSelection, Lexeme.spanAt, Nat.zero_add]
      simp [Nat.add_assoc, Lexeme.chars]

end

/-- The tokens strictly inside the signature of an outline. -/
def signatureTokens (o : Outline) : List Token :=
  (o.signature.map fun e =>
    tokensOf (byteLength (Lexeme.charsOf (o.lead ++ [e.opener]))) e.inner).getD []

/-- The header of an outline. -/
def headerOf (o : Outline) : Header where
  name := o.name
  selectionOpen := o.selectionOpen
  selectionClose := o.selectionClose
  signature := o.signatureKind
  signatureSpan := o.signatureSpan
  signatureTokens := signatureTokens o
  selectionTokens :=
    tokensOf (byteLength (Lexeme.charsOf (o.lead ++ o.signatureRow ++ o.middle))) o.selection.row

/-- Helper: the parts that were found make up the header. -/
private theorem headerOf_eq (lead : List Lexeme) (name : Option String)
    (signature : Option Enclosed) (middle : List Lexeme) (selection : Enclosed)
    (after : List Lexeme) (trailer : List Char) :
    let found := foundSignature lead signature
    let inside := foundSelection (lead ++ (signature.map Enclosed.row).getD []) middle selection
    (⟨name, inside.1, inside.2.1, found.kind, found.span, found.tokens, inside.2.2⟩ : Header) =
      headerOf ⟨lead, name, signature, middle, selection, after, trailer⟩ := by
  cases signature with
  | none => rfl
  | some e => rfl

/-- **The landmarks are found by slices and ranges that exist, and are those of the outline.** An
outline keeps rows of lexemes and no offsets; that both views of an operation agree is what lets
everything else be proved of outlines. -/
theorem parseHeader?_eq (source : String) :
    parseHeader? source.toList = some ((Outline.ofText? source).map headerOf) := by
  have hread := readAt_scan source.toList
  rw [parseHeader?, tokenize?_eq, Outline.ofText?, scanText]
  unfold Outline.ofScan?
  generalize (scan source.toList).lexemes = row at hread ⊢
  -- Each landmark is looked for behind the one before it
  have hlead := readLead?_eq hread
  have happend := cutLead_append row
  generalize cutLead row = cut at hlead happend ⊢
  obtain ⟨lead, name, behindLead⟩ := cut
  subst happend
  simp only [hlead, readSignature?_eq hread, Option.bind_eq_bind, Option.bind_some]
  cases hsignature : cutSignature behindLead with
  | none => rfl
  | some cut =>
    obtain ⟨signature, behindSignature⟩ := cut
    obtain ⟨hrow, -⟩ := cutSignature_inversion hsignature
    have hnext : (foundSignature lead signature).next =
        (lead ++ (signature.map Enclosed.row).getD []).length := by
      cases signature <;> simp [foundSignature]
    subst hrow
    have hselection := readSelection?_eq
      (lead ++ (signature.map Enclosed.row).getD []) behindSignature
    rw [← hnext, List.append_assoc] at hselection
    simp only [Option.map_some, Option.bind_some, hselection]
    cases cutSelection behindSignature with
    | none => rfl
    | some cut => exact congrArg (fun header => some (some header)) (headerOf_eq ..)

/-! ## §4 Referenced variables -/

/-- The names in `seen`, and those of the variables among the tokens of a source. -/
def addVariables? (source : List Char) (seen : List String) : List Token → Option (List String)
  | [] => some seen
  | t :: rest =>
    if t.kind = .variable then do
      let name ← t.variableName? source
      addVariables? source (Names.add seen (String.ofList name)) rest
    else addVariables? source seen rest

theorem addVariables?_eq {source behind : List Char} {offset : Nat} {row : List Lexeme}
    (h : ReadAt source offset row behind) (seen : List String) :
    addVariables? source seen (tokensOf offset row) =
      some (Names.addAll seen ((row.filter Lexeme.isVariable).map Lexeme.variableName)) := by
  induction row generalizing offset seen with
  | nil => rfl
  | cons l rest ih =>
    rw [tokensOf_cons, addVariables?]
    -- Only the tokens of variables are sliced, one byte behind the dollar sign
    by_cases hvariable : l.kind = .variable
    · simp only [hvariable, if_true]
      rw [← hvariable, variableName?_eq h hvariable]
      simp only [Option.bind_eq_bind, Option.bind_some, ih h.next]
      simp [Lexeme.isVariable, hvariable, Names.addAll, Lexeme.variableName]
    · simp only [hvariable, if_false, ih h.next]
      simp [Lexeme.isVariable, hvariable]

/-- The lexemes of an outline stand in its text. -/
theorem readAt_outline {source : String} {o : Outline} (h : Outline.ofText? source = some o) :
    ReadAt source.toList 0 (o.lead ++ o.signatureRow ++ o.middle ++ o.selection.row ++ o.after)
      o.trailer := by
  have hread := readAt_scan source.toList
  have hscan : o.scan = scan source.toList := (Outline.parted_of_ofScan? h).1
  rwa [← hscan] at hread

/-- **The referenced variables are sliced out of the source.** -/
theorem referencedVariables?_eq {source : String} {o : Outline}
    (h : Outline.ofText? source = some o) :
    addVariables? source.toList [] (headerOf o).selectionTokens = some o.referencedVariables := by
  have hread := (readAt_outline h).append.1.append.2
  rw [Nat.zero_add] at hread
  exact addVariables?_eq hread []

end QueryWeave.Bytes
