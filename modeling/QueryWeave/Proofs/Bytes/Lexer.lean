import QueryWeave.Lexeme.Scanner
import QueryWeave.Proofs.Bytes.Slice
import QueryWeave.Proofs.Lexeme.Spelling

/-!
# Scanning by Offsets

The scanner as a cursor that moves through the text: it keeps the text and an offset, and looks at
the rest of the text behind the offset before every step. A reader gives the number of bytes that it
passes over. Every reader has one lemma, of one shape: where the rest of the text is `rest`, the
reader has a result, and it passes over what the scanner takes from the front of `rest`.

- `tokenize?_eq`: the cursor never looks behind the text or inside a character, and finds the
  lexemes of the scanner where they stand.
-/

namespace QueryWeave.Bytes

/-! ## §1 Readers

The cursor is an offset, and each reader looks at the text from there on. A reader fails only where
the offset is out of range or inside a character; that this never happens is what the module is
about. -/

/-- The bytes of the characters behind an offset that satisfy `p`. Every step asks for the rest of
the text again, so a step to an offset inside a character would leave the whole reader without a
result. -/
def runBytes? (p : Char → Bool) (source : List Char) (offset : Nat) : Option Nat :=
  match _h : after? source offset with
  | none => none
  | some [] => some 0
  | some (c :: _) =>
    if p c then (runBytes? p source (offset + c.utf8Size)).map (c.utf8Size + ·) else some 0
termination_by byteLength source - offset
decreasing_by
  have hlt := lt_of_after? _h
  have hpos := Char.utf8Size_pos c
  omega

/-- The bytes of the ignored characters behind an offset. -/
def gapBytes? (source : List Char) (offset : Nat) : Option Nat :=
  match _h : after? source offset with
  | none => none
  | some [] => some 0
  | some (c :: _) =>
    if c = '#' then
      -- A comment, through the character in front of the line break
      match runBytes? (fun c => !isLineBreak c) source (offset + c.utf8Size) with
      | none => none
      | some comment =>
        (gapBytes? source (offset + (c.utf8Size + comment))).map (c.utf8Size + comment + ·)
    else if isIgnored c then (gapBytes? source (offset + c.utf8Size)).map (c.utf8Size + ·)
    else some 0
termination_by byteLength source - offset
decreasing_by
  all_goals
    have hlt := lt_of_after? _h
    have hpos := Char.utf8Size_pos c
    omega

/-- The bytes of a block string behind its opening quotes. -/
def blockBytes? (source : List Char) (offset : Nat) : Option Nat :=
  match _h : after? source offset with
  | none => none
  | some [] => some 0
  | some (c :: rest) =>
    if c = '\\' ∧ rest.take 3 = ['"', '"', '"'] then (blockBytes? source (offset + 4)).map (4 + ·)
    else if c = '"' ∧ rest.take 2 = ['"', '"'] then some 3
    else (blockBytes? source (offset + c.utf8Size)).map (c.utf8Size + ·)
termination_by byteLength source - offset
decreasing_by
  all_goals
    have hlt := lt_of_after? _h
    have hpos := Char.utf8Size_pos c
    omega

/-- The bytes of a string behind its opening quote. -/
def quotedBytes? (source : List Char) (offset : Nat) : Option Nat :=
  match _h : after? source offset with
  | none => none
  | some [] => some 0
  | some (c :: _) =>
    if c = '\\' then
      -- The character behind a backslash is passed over unseen, if there is one
      match after? source (offset + c.utf8Size) with
      | none => none
      | some [] => some c.utf8Size
      | some (d :: _) =>
        (quotedBytes? source (offset + (c.utf8Size + d.utf8Size))).map (c.utf8Size + d.utf8Size + ·)
    else if c = '"' || c = '\n' then some c.utf8Size
    else (quotedBytes? source (offset + c.utf8Size)).map (c.utf8Size + ·)
termination_by byteLength source - offset
decreasing_by
  all_goals
    have hlt := lt_of_after? _h
    have hpos := Char.utf8Size_pos c
    omega

/-- The bytes of a string of either form behind its first quote. -/
def stringBytes? (source : List Char) (offset : Nat) : Option Nat := do
  let rest ← after? source offset
  if rest.take 2 = ['"', '"'] then return 2 + (← blockBytes? source (offset + 2))
  else quotedBytes? source offset

/-- The kind of the lexeme whose first character `c` stands in front of an offset, and the bytes of
it behind the offset. -/
def classify? (source : List Char) (c : Char) (offset : Nat) : Option (LexemeKind × Nat) := do
  let rest ← after? source offset
  if c = '.' && rest.take 2 = ['.', '.'] then return (.ellipsis, 2)
  else if c = '$' && rest.head?.any isNameStart then
    return (.variable, ← runBytes? isNamePart source offset)
  else if c = '"' then return (.stringValue, ← stringBytes? source offset)
  else if isNameStart c then return (.name, ← runBytes? isNamePart source offset)
  else if isNumberStart c then return (.other, ← runBytes? isNumberPart source offset)
  else return (.punctuator c, 0)

/-! ## §2 Tokens -/

/-- A lexeme by its kind and its place; its text is in the source. -/
structure Token where
  kind : LexemeKind
  span : Span
  deriving Repr, DecidableEq

/-- The tokens of a row whose first gap begins at `offset`. -/
def tokensOf (offset : Nat) (row : List Lexeme) : List Token :=
  (Lexeme.locate offset row).map fun located => ⟨located.2.kind, located.1⟩

/-- The tokens of a text from an offset on. -/
def tokensFrom? (source : List Char) (offset : Nat) : Option (List Token) :=
  match gapBytes? source offset with
  | none => none
  | some gap =>
    match _h : after? source (offset + gap) with
    | none => none
    | some [] => some []
    | some (c :: _) =>
      match classify? source c (offset + gap + c.utf8Size) with
      | none => none
      | some (kind, more) =>
        (tokensFrom? source (offset + gap + (c.utf8Size + more))).map
          (⟨kind, offset + gap, offset + gap + (c.utf8Size + more)⟩ :: ·)
termination_by byteLength source - offset
decreasing_by
  have hlt := lt_of_after? _h
  have hpos := Char.utf8Size_pos c
  omega

def tokenize? (source : List Char) : Option (List Token) :=
  tokensFrom? source 0

/-! ## §3 What the readers pass over -/

variable {source rest : List Char} {offset : Nat}

theorem runBytes?_eq (p : Char → Bool) (h : after? source offset = some rest) :
    runBytes? p source offset = some (byteLength (rest.take (runLength p rest))) := by
  induction rest generalizing offset with
  | nil =>
    rw [runBytes?]
    split <;> simp_all
  | cons c more ih =>
    have hmore := ih (after?_cons h)
    rw [runBytes?]
    split
    · simp_all
    · simp_all
    · rename_i heq
      rw [h] at heq
      cases heq
      rw [hmore]
      -- The run ends in front of the first character that does not satisfy `p`
      by_cases hc : p c = true <;> simp [hc, runLength, byteLength]

/-- Inside a comment, the gap goes on through the line, and behind it. -/
theorem gapLength_comment (cs : List Char) :
    gapLength true cs = runLength (fun c => !isLineBreak c) cs +
      gapLength false (cs.drop (runLength (fun c => !isLineBreak c) cs)) := by
  induction cs with
  | nil => rfl
  | cons c rest ih =>
    by_cases hbreak : isLineBreak c = true
    · -- The line break ends the comment and belongs to the gap outside
      simp [gapLength, runLength, hbreak]
    · simp only [Bool.not_eq_true] at hbreak
      have hrun : runLength (fun c => !isLineBreak c) (c :: rest) =
          runLength (fun c => !isLineBreak c) rest + 1 := by
        simp [runLength, hbreak]
      rw [hrun, List.drop_succ_cons]
      simp only [gapLength, hbreak, Bool.not_false, Bool.and_self, if_true, ih]
      omega

theorem gapBytes?_eq (h : after? source offset = some rest) :
    gapBytes? source offset = some (byteLength (rest.take (gapLength false rest))) := by
  -- A comment is passed over at once, so the induction is on the length
  induction hlen : rest.length using Nat.strongRecOn generalizing rest offset with
  | ind n ih =>
    subst hlen
    rw [gapBytes?]
    split
    · simp_all
    · simp_all [gapLength]
    · rename_i c more heq
      rw [h] at heq
      cases heq
      have hmore := after?_cons h
      by_cases hhash : c = '#'
      · subst hhash
        -- The comment runs to the line break, and the gap goes on there
        have hbehind := after?_take (runLength (fun c => !isLineBreak c) more) hmore
        have hgap : gapLength false ('#' :: more) = gapLength true more + 1 := rfl
        have hshorter : (more.drop (runLength (fun c => !isLineBreak c) more)).length <
            ('#' :: more).length := by
          simp only [List.length_drop, List.length_cons]
          omega
        rw [Nat.add_assoc] at hbehind
        rw [if_pos rfl, hgap, List.take_succ_cons, gapLength_comment, byteLength,
          byteLength_take_add]
        simp only [runBytes?_eq _ hmore, ih _ hshorter hbehind rfl, Option.map_some,
          Nat.add_assoc]
      · rw [if_neg hhash]
        by_cases hignored : isIgnored c = true
        · simp [ih _ (by simp) hmore rfl, hignored, hhash, gapLength, byteLength]
        · simp [hignored, hhash, gapLength]

theorem blockBytes?_eq (h : after? source offset = some rest) :
    blockBytes? source offset = some (byteLength (rest.take (blockLength rest))) := by
  -- An escaped closing is passed over at once, so the induction is on the length
  induction hlen : rest.length using Nat.strongRecOn generalizing rest offset with
  | ind n ih =>
    subst hlen
    rw [blockBytes?]
    split
    · simp_all
    · simp_all [blockLength]
    · rename_i c more heq
      rw [h] at heq
      cases heq
      have hmore := after?_cons h
      rw [blockLength_cons]
      split_ifs with hescaped hclosing
      · -- A backslash and three quotes are four bytes in all
        obtain ⟨rfl, hquotes⟩ := hescaped
        have hbehind : after? source (offset + 4) = some (more.drop 3) := by
          have hskip := after?_take 3 hmore
          rwa [hquotes, Nat.add_assoc] at hskip
        have hpassed : byteLength (('\\' :: more).take (blockLength (more.drop 3) + 4)) =
            4 + byteLength ((more.drop 3).take (blockLength (more.drop 3))) := by
          rw [Nat.add_comm _ 4, byteLength_take_add, List.take_succ_cons, hquotes]
          rfl
        have hshorter : (more.drop 3).length < ('\\' :: more).length := by
          simp only [List.length_drop, List.length_cons]
          omega
        rw [ih _ hshorter hbehind rfl, hpassed]
        rfl
      · obtain ⟨rfl, hquotes⟩ := hclosing
        rw [List.take_succ_cons, hquotes]
        rfl
      · rw [ih _ (by simp) hmore rfl]
        rfl

theorem quotedBytes?_eq (h : after? source offset = some rest) :
    quotedBytes? source offset = some (byteLength (rest.take (quotedLength rest))) := by
  -- What stands behind a backslash is passed over with it, so the induction is on the length
  induction hlen : rest.length using Nat.strongRecOn generalizing rest offset with
  | ind n ih =>
    subst hlen
    rw [quotedBytes?]
    split
    · simp_all
    · simp_all [quotedLength]
    · rename_i c more heq
      rw [h] at heq
      cases heq
      have hmore := after?_cons h
      rw [quotedLength_cons]
      by_cases hescape : c = '\\'
      · subst hescape
        rw [if_pos rfl, if_pos rfl, hmore]
        cases more with
        | nil => rfl
        | cons d behind =>
          have hbehind := after?_cons hmore
          have hshorter : behind.length < ('\\' :: d :: behind).length := by
            simp only [List.length_cons]
            omega
          rw [Nat.add_assoc] at hbehind
          simp [ih _ hshorter hbehind rfl, byteLength, Nat.add_assoc]
      · rw [if_neg hescape, if_neg hescape]
        split
        · simp [byteLength]
        · rw [ih _ (by simp) hmore rfl]
          rfl

theorem stringBytes?_eq (h : after? source offset = some rest) :
    stringBytes? source offset = some (byteLength (rest.take (stringLength rest))) := by
  rw [stringBytes?, stringLength_eq]
  simp only [h, Option.bind_eq_bind, Option.bind_some]
  split
  · -- A block string is measured behind its other two quotes
    rename_i hquotes
    have hbehind : after? source (offset + 2) = some (rest.drop 2) := by
      have hskip := after?_take 2 h
      rwa [hquotes] at hskip
    rw [blockBytes?_eq hbehind, Nat.add_comm _ 2, byteLength_take_add, hquotes]
    rfl
  · exact quotedBytes?_eq h

/-- The cursor tells the kind of a lexeme as the scanner does, and passes over all of it. -/
theorem classify?_eq (c : Char) (h : after? source offset = some rest) :
    classify? source c offset =
      some ((classify c rest).1, byteLength (rest.take (classify c rest).2)) := by
  unfold classify? classify
  simp only [h, Option.bind_eq_bind, Option.bind_some, runBytes?_eq _ h, stringBytes?_eq h, pure]
  split_ifs with hdots
  · simp only [Bool.and_eq_true, decide_eq_true_eq] at hdots
    rw [hdots.2]
    rfl
  all_goals rfl

/-! ## §4 Tokens of a text -/

@[simp] theorem tokensOf_nil (offset : Nat) : tokensOf offset [] = [] := rfl

@[simp] theorem tokensOf_cons (offset : Nat) (l : Lexeme) (rest : List Lexeme) :
    tokensOf offset (l :: rest) =
      ⟨l.kind, l.spanAt offset⟩ :: tokensOf (l.spanAt offset).stop rest := rfl

@[simp] theorem length_tokensOf (offset : Nat) (row : List Lexeme) :
    (tokensOf offset row).length = row.length := by
  simp [tokensOf]

theorem tokensOf_append (offset : Nat) (first second : List Lexeme) :
    tokensOf offset (first ++ second) =
      tokensOf offset first ++ tokensOf (offset + byteLength (Lexeme.charsOf first)) second := by
  simp [tokensOf, Lexeme.locate_append]

/-- From any offset, the cursor finds the lexemes of the rest where they stand. By induction on the
length of the rest: every lexeme has a character at least, so the cursor moves on. -/
theorem tokensFrom?_eq (h : after? source offset = some rest) :
    tokensFrom? source offset = some (tokensOf offset (scan rest).lexemes) := by
  revert offset
  fun_induction scan rest
  case case1 cs gap hdrop =>
    intro offset h
    have hbehind := after?_take gap h
    rw [hdrop] at hbehind
    rw [tokensFrom?, gapBytes?_eq h]
    dsimp only
    split <;> simp_all [gap]
  case case2 cs gap c more hdrop kind taken hclass ih =>
    intro offset h
    have hbehind := after?_take gap h
    rw [hdrop] at hbehind
    -- Behind its first character, the cursor classifies a lexeme as the scanner does
    have hfirst := after?_cons hbehind
    have hclassified := classify?_eq c hfirst
    have hnext := after?_take taken hfirst
    rw [hclass] at hclassified
    rw [Nat.add_assoc] at hnext
    rw [tokensFrom?, gapBytes?_eq h]
    dsimp only
    split
    · simp_all [gap]
    · simp_all [gap]
    · rename_i d rest heq
      rw [hbehind] at heq
      cases heq
      rw [hclassified]
      dsimp only
      rw [ih hnext]
      rfl

/-- **The cursor reads every text to its end, and finds the lexemes of the scanner.** That there is
a result says that the cursor never looked at the text from inside a character. -/
theorem tokenize?_eq (source : List Char) :
    tokenize? source = some (tokensOf 0 (scan source).lexemes) :=
  tokensFrom?_eq (after?_zero source)

end QueryWeave.Bytes
