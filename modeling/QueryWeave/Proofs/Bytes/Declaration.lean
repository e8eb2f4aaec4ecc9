import QueryWeave.Proofs.Bytes.Header
import QueryWeave.Proofs.Operation.Signature

/-!
# Declarations by Offsets

The entries of a signature, read along the indices of its tokens. The type and the default value of
an entry are ranges of tokens; their texts are sliced out of the source, from the first token of the
range through the last.

- `readList?_eq`: the entries are those that are read from the row of lexemes.
-/

namespace QueryWeave.Bytes

/-! ## §1 Reading

Entries are read from tokens by their indices. The readers have the shape of those for rows, with
indices in the place of rests, and every text is a slice of the source. -/

/-- The number of tokens of a type inside `depth` square brackets. -/
def typeReach (depth : Nat) : List Token → Nat
  | [] => 0
  | t :: rest =>
    if t.kind = .variable then 0
    else if depth = 0 && (t.isMark '=' || t.isMark '@') then 0
    else if t.isMark '[' then typeReach (depth + 1) rest + 1
    else if t.isMark ']' then typeReach (depth - 1) rest + 1
    else typeReach depth rest + 1

/-- The number of tokens of a default value. -/
def defaultReach (tokens : List Token) : Nat :=
  (tokens.takeWhile fun t => t.kind ≠ .variable && !t.isMark '@').length

/-- The source from the first token of a part through its last. -/
def partText? (source : List Char) (part : List Token) : Option (List Char) :=
  match Span.extent (part.map Token.span) with
  | none => some []
  | some span => slice? source span

/-- The index at which the type of the variable at an index begins. -/
def typeStart (tokens : List Token) (idx : Nat) : Nat :=
  if (tokens[idx + 1]?).any (Token.isMark ':') then idx + 2 else idx + 1

/-- The index behind a type that begins at an index. -/
def typeStop (tokens : List Token) (start : Nat) : Nat :=
  start + typeReach 0 (tokens.drop start)

/-- The index behind the default value whose equals sign may stand at an index. -/
def defaultStop (tokens : List Token) (idx : Nat) : Nat :=
  if (tokens[idx]?).any (Token.isMark '=') then idx + 1 + defaultReach (tokens.drop (idx + 1))
  else idx

/-- An entry takes up at least its variable. -/
theorem lt_defaultStop (tokens : List Token) (idx : Nat) :
    idx < defaultStop tokens (typeStop tokens (typeStart tokens idx)) := by
  have hstart : idx < typeStart tokens idx := by
    unfold typeStart
    split <;> omega
  unfold defaultStop typeStop
  split <;> omega

def readType? (source : List Char) (tokens : List Token) (start : Nat) : Option (List Char) := do
  partText? source (← range? tokens start (typeStop tokens start))

def readDefault? (source : List Char) (tokens : List Token) (idx : Nat) : Option (Option String) :=
  if (tokens[idx]?).any (Token.isMark '=') then do
    let part ← range? tokens (idx + 1) (defaultStop tokens idx)
    return some (String.ofList (← partText? source part))
  else some none

/-- The entries among the tokens of a source, from an index on. Tokens in front of a variable are
passed over, as the source does, and each part of an entry begins where the one before it was found
to end. -/
def readFrom? (source : List Char) (tokens : List Token) (idx : Nat) : Option (List Declaration) :=
  match _h : tokens[idx]? with
  | none => some []
  | some token =>
    if token.kind = .variable then do
      let typeText ← readType? source tokens (typeStart tokens idx)
      let defaultText ← readDefault? source tokens (typeStop tokens (typeStart tokens idx))
      let name ← token.variableName? source
      let later ←
        readFrom? source tokens (defaultStop tokens (typeStop tokens (typeStart tokens idx)))
      return ⟨String.ofList name, String.ofList typeText, defaultText⟩ :: later
    else readFrom? source tokens (idx + 1)
termination_by tokens.length - idx
decreasing_by
  all_goals
    have hlt : idx < tokens.length := (List.getElem?_eq_some_iff.1 _h).1
  · have hnext := lt_defaultStop tokens idx
    omega
  · omega

/-- The entries among the tokens of a source. -/
def readList? (source : List Char) (tokens : List Token) : Option (List Declaration) :=
  readFrom? source tokens 0

/-! ## §2 Parts of an entry -/

theorem typeReach_eq (depth offset : Nat) (row : List Lexeme) :
    typeReach depth (tokensOf offset row) = Declaration.typeLength depth row := by
  induction row generalizing depth offset with
  | nil => rfl
  | cons l rest ih =>
    simp only [tokensOf_cons, typeReach, Declaration.typeLength, ih, Lexeme.isVariable,
      decide_eq_true_eq]
    rfl

theorem defaultReach_eq (offset : Nat) (row : List Lexeme) :
    defaultReach (tokensOf offset row) = Declaration.defaultLength row := by
  unfold defaultReach Declaration.defaultLength
  induction row generalizing offset with
  | nil => rfl
  | cons l rest ih =>
    have hl : (decide (l.kind ≠ .variable) && !Token.isMark '@' ⟨l.kind, l.spanAt offset⟩) =
        (!l.isVariable && !l.isMark '@') := by
      simp [Lexeme.isVariable, Token.isMark, Lexeme.isMark]
    -- The reach is told by the kinds of the tokens, which are those of the lexemes
    rw [tokensOf_cons, List.takeWhile_cons, List.takeWhile_cons, hl]
    split
    · rw [List.length_cons, List.length_cons, ih]
    · rfl

/-- The text of a part is a slice. -/
theorem partText?_eq {source behind : List Char} {offset : Nat} {part : List Lexeme}
    (h : ReadAt source offset part behind) :
    partText? source (tokensOf offset part) = some (Lexeme.spanText part) := by
  have hspans : (tokensOf offset part).map Token.span =
      (Lexeme.locate offset part).map Prod.fst := by
    simp [tokensOf]
  -- From where the first lexeme begins through where the last one ends
  rw [partText?, hspans]
  cases part with
  | nil => rfl
  | cons first rest =>
    rw [Lexeme.extent_locate]
    have htext := h.text
    rw [← List.append_assoc] at htext
    exact slice?_of_after? htext

/-- The colon behind a variable, if there is one, is passed over. -/
theorem typeStart_eq (offset : Nat) (front : List Lexeme) (l : Lexeme) (rest : List Lexeme) :
    ∃ colon, rest = colon ++ Declaration.skipColon rest ∧
      typeStart (tokensOf offset (front ++ l :: rest)) front.length =
        (front ++ l :: colon).length := by
  rw [typeStart, any_isMark_next]
  cases rest with
  | nil => exact ⟨[], rfl, by simp⟩
  | cons colon more =>
    by_cases hcolon : colon.isMark ':' = true
    · exact ⟨[colon], by simp [Declaration.skipColon, hcolon], by simp [hcolon]⟩
    · exact ⟨[], by simp [Declaration.skipColon, hcolon], by simp [hcolon]⟩

theorem typeLength_le_length (depth : Nat) (row : List Lexeme) :
    Declaration.typeLength depth row ≤ row.length := by
  induction row generalizing depth with
  | nil => exact Nat.le_refl _
  | cons l rest ih =>
    simp only [Declaration.typeLength, List.length_cons]
    split_ifs <;> simp [ih]

/-- The type behind a variable and its colon is a slice, and a part of the row is passed. What is
passed is said as well, because the default value is read from there on. -/
theorem readType?_eq {source behind : List Char} {offset : Nat} {front rest : List Lexeme}
    {l : Lexeme} (h : ReadAt source offset (front ++ l :: rest) behind) :
    let tokens := tokensOf offset (front ++ l :: rest)
    ∃ passed type after, front ++ l :: rest = passed ++ after ∧ after.length ≤ rest.length ∧
      Declaration.skipColon rest = type ++ after ∧
      Declaration.typeLength 0 (type ++ after) = type.length ∧
      readType? source tokens (typeStart tokens front.length) = some (Lexeme.spanText type) ∧
      typeStop tokens (typeStart tokens front.length) = passed.length := by
  intro tokens
  obtain ⟨colon, hcolon, hstart⟩ := typeStart_eq offset front l rest
  generalize Declaration.skipColon rest = row at hcolon ⊢
  let type := row.take (Declaration.typeLength 0 row)
  let after := row.drop (Declaration.typeLength 0 row)
  have hrow : row = type ++ after := (List.take_append_drop _ _).symm
  have htype : type.length = Declaration.typeLength 0 row :=
    List.length_take_of_le (typeLength_le_length 0 row)
  -- The row: what was read, the variable with its colon, the type, and what is behind it
  have hfront : front ++ l :: rest = (front ++ l :: colon) ++ (type ++ after) := by
    rw [← hrow, hcolon]
    simp
  have hstop : typeStop tokens (front ++ l :: colon).length =
      (front ++ l :: colon).length + type.length := by
    rw [typeStop]
    simp only [tokens]
    rw [hfront, drop_tokensOf, typeReach_eq, ← hrow, htype]
  have hrange : range? tokens (front ++ l :: colon).length
      ((front ++ l :: colon).length + type.length) =
      some (tokensOf (offset + byteLength (Lexeme.charsOf (front ++ l :: colon))) type) :=
    range?_tokensOf _ _ _ hfront rfl rfl
  refine ⟨(front ++ l :: colon) ++ type, type, after, ?_, ?_, hrow, ?_, ?_, ?_⟩
  · rw [hfront, List.append_assoc (front ++ l :: colon)]
  · rw [hcolon, hrow, List.length_append, List.length_append]
    omega
  · rw [← hrow, htype]
  · rw [hfront] at h
    simp only [tokens, hstart] at hstop hrange ⊢
    rw [readType?, hstop, hrange]
    exact partText?_eq h.append.2.append.1
  · simp only [tokens, hstart] at hstop ⊢
    rw [hstop, @List.length_append _ (front ++ l :: colon)]

/-- The default value behind a type is a slice, and a part of the row is passed. Without an equals
sign nothing is sliced, and the index stays where it was. -/
theorem readDefault?_eq {source behind : List Char} {offset : Nat} {front after : List Lexeme}
    (h : ReadAt source offset (front ++ after) behind) :
    let part := after.tail.take (Declaration.defaultLength after.tail)
    let tokens := tokensOf offset (front ++ after)
    if after.head?.any (Lexeme.isMark '=') then
      readDefault? source tokens front.length = some (some (Declaration.partText part)) ∧
        defaultStop tokens front.length = (front ++ after.take 1 ++ part).length
    else
      readDefault? source tokens front.length = some none ∧
        defaultStop tokens front.length = front.length := by
  intro part tokens
  have hsign : (tokens[front.length]?).any (Token.isMark '=') =
      after.head?.any (Lexeme.isMark '=') :=
    any_isMark_tokensOf offset '=' front after
  -- A default value stands behind an equals sign, directly behind the type
  by_cases hmark : after.head?.any (Lexeme.isMark '=') = true
  · rw [if_pos hmark]
    rw [hmark] at hsign
    cases after with
    | nil => cases hmark
    | cons l more =>
      have hpart : part.length = Declaration.defaultLength more :=
        List.length_take_of_le (List.takeWhile_sublist _).length_le
      have hrow : front ++ l :: more =
          (front ++ [l]) ++ (part ++ more.drop (Declaration.defaultLength more)) := by
        simp [part]
      have hlength : (front ++ [l]).length = front.length + 1 := by simp
      have hstop : defaultStop tokens front.length = (front ++ [l] ++ part).length := by
        rw [defaultStop, if_pos hsign, List.length_append, hlength, hpart,
          ← defaultReach_eq (offset + byteLength (Lexeme.charsOf (front ++ [l]))), ← drop_tokensOf,
          hlength]
        simp [tokens]
      refine ⟨?_, hstop⟩
      have hrange : range? tokens (front.length + 1) (front ++ [l] ++ part).length =
          some (tokensOf (offset + byteLength (Lexeme.charsOf (front ++ [l]))) part) :=
        range?_tokensOf (front ++ [l]) part _ hrow hlength (by rw [List.length_append, hlength])
      rw [hrow] at h
      rw [readDefault?, if_pos hsign, hstop, hrange]
      simp only [Option.bind_eq_bind, Option.bind_some, partText?_eq h.append.2.append.1]
      rfl
  · rw [if_neg hmark]
    rw [Bool.not_eq_true] at hmark
    rw [hmark] at hsign
    simp [readDefault?, defaultStop, hsign]

/-! ## §3 The entries are those of the row -/

/-- What is read at a variable is its entry, and the row goes on behind that. The row that is left
is shorter, which is what the reading of the whole list ends by. -/
theorem readEntry?_eq {source behind : List Char} {offset : Nat} {front rest : List Lexeme}
    {l : Lexeme} (h : ReadAt source offset (front ++ l :: rest) behind)
    (hvariable : l.isVariable = true) :
    let tokens := tokensOf offset (front ++ l :: rest)
    let next := typeStop tokens (typeStart tokens front.length)
    ∃ passed later type value, front ++ l :: rest = passed ++ later ∧ later.length ≤ rest.length ∧
      readType? source tokens (typeStart tokens front.length) = some type ∧
      readDefault? source tokens next = some value ∧ defaultStop tokens next = passed.length ∧
      Declaration.readList (l :: rest) =
        ⟨l.variableName, String.ofList type, value⟩ :: Declaration.readList later := by
  intro tokens next
  obtain ⟨passed, type, after, hrow, hle, htail, hlength, htype, hstop⟩ := readType?_eq h
  rw [Declaration.readList_variable hvariable htail hlength]
  rw [hrow] at h
  have hdefault := readDefault?_eq h
  simp only [tokens, next, hstop]
  dsimp only at hdefault
  rw [← hrow] at hdefault
  split at hdefault
  · rename_i hmark
    -- The equals sign and the default value are passed
    have hafter : passed ++ after = (passed ++ after.take 1 ++
        after.tail.take (Declaration.defaultLength after.tail)) ++
          after.tail.drop (Declaration.defaultLength after.tail) := by
      rw [List.append_assoc, List.append_assoc, List.take_append_drop, ← List.drop_one,
        List.take_append_drop]
    have hshorter : (after.tail.drop (Declaration.defaultLength after.tail)).length ≤
        rest.length := by
      simp only [List.length_drop, List.length_tail]
      omega
    rw [if_pos hmark]
    exact ⟨_, _, _, _, hrow.trans hafter, hshorter, htype, hdefault.1, hdefault.2, rfl⟩
  · rename_i hmark
    rw [if_neg hmark]
    exact ⟨_, _, _, _, hrow, hle, htype, hdefault.1, hdefault.2, rfl⟩

/-- **Behind any front, the entries are read from ranges and slices that exist, and are those of the
row.** -/
theorem readFrom?_eq {source behind : List Char} {offset : Nat} {front row : List Lexeme}
    (h : ReadAt source offset (front ++ row) behind) :
    readFrom? source (tokensOf offset (front ++ row)) front.length =
      some (Declaration.readList row) := by
  -- By the length of the row: an entry is passed as a whole, any other token by itself
  induction hlen : row.length using Nat.strongRecOn generalizing front row with
  | ind n ih =>
    subst hlen
    cases row with
    | nil =>
      rw [readFrom?, Declaration.readList]
      split
      · rfl
      · simp_all
    | cons l rest =>
      have htoken := getElem?_tokensOf offset front l rest
      rw [readFrom?]
      split
      · simp_all
      · rename_i token heq
        rw [htoken] at heq
        cases heq
        by_cases hvariable : l.kind = .variable
        · obtain ⟨passed, later, type, value, hrow, hle, htype, hvalue, hstop, hentry⟩ :=
            readEntry?_eq h (Lexeme.isVariable_iff.2 hvariable)
          have hname := variableName?_eq h.append.2 hvariable
          rw [if_pos hvariable, htype, hvalue, hstop, hname, hentry]
          rw [hrow] at h ⊢
          rw [ih later.length (Nat.lt_succ_of_le hle) h rfl]
          rfl
        · have hrow : front ++ l :: rest = (front ++ [l]) ++ rest := by simp
          have hlength : (front ++ [l]).length = front.length + 1 := by simp
          rw [hrow] at h
          have hrest := ih rest.length (Nat.lt_succ_self _) h rfl
          rw [if_neg hvariable, hrow, ← hlength, hrest]
          conv_rhs => rw [Declaration.readList]
          simp [Lexeme.isVariable, hvariable]

theorem readList?_eq {source behind : List Char} {offset : Nat} {row : List Lexeme}
    (h : ReadAt source offset row behind) :
    readList? source (tokensOf offset row) = some (Declaration.readList row) :=
  @readFrom?_eq source behind offset [] row h

end QueryWeave.Bytes
