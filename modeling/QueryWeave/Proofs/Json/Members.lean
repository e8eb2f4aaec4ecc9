import QueryWeave.Proofs.Json.Compact

/-!
# Texts of Members

The members of an object as texts. Commas and colons count where they stand outside all strings and
brackets: the text of an object is cut at its commas, each member at its colon. What a member of a
compact text has behind its colon is the compact text of its value.

- `memberTexts?`: the names of an object with the texts of their values.
- `memberTexts?_compact`: the members of a compact text.
-/

namespace QueryWeave

/-! ## §1 Cutting a text -/

/-- Where a character of a JSON text stands: outside of strings or inside, and how deep in brackets.
It is all that is remembered on the way to the next member. -/
inductive JsonPlace where
  | outside (depth : Nat)
  | inside (depth : Nat)
  /-- Behind a backslash. -/
  | escaped (depth : Nat)
  deriving DecidableEq

/-- Where the next character stands. -/
def JsonPlace.next : JsonPlace → Char → JsonPlace
  | outside depth, c =>
    if c = '"' then inside depth
    else if c = '[' || c = '{' then outside (depth + 1)
    else if c = ']' || c = '}' then outside (depth - 1)
    else outside depth
  | inside depth, c =>
    if c = '"' then outside depth else if c = '\\' then escaped depth else inside depth
  | escaped depth, _ => inside depth

/-- Put characters in front of the first part. -/
def prefixFirst (cs : List Char) : List (List Char) → List (List Char)
  | [] => [cs]
  | part :: parts => (cs ++ part) :: parts

/-- A text cut at a mark, where it stands outside of strings and brackets. -/
def cutAt (mark : Char) : JsonPlace → List Char → List (List Char)
  | _, [] => [[]]
  | place, c :: rest =>
    if place = .outside 0 ∧ c = mark then [] :: cutAt mark place rest
    else prefixFirst [c] (cutAt mark (place.next c) rest)

/-- The string that is the whole of a text. -/
def readString? : List Char → Option String
  | [] => none
  | c :: rest =>
    match JsonMark.read? c rest with
    | some (.string value, length) => if length = rest.length then value else none
    | _ => none

/-- A member: its name, and the text of its value. -/
def memberText? (cs : List Char) : Option (String × List Char) :=
  match cutAt ':' (.outside 0) cs with
  | [name, value] => (readString? name).map fun name => (name, value)
  | _ => none

/-- The members of an object that is written without blanks. -/
def memberTexts? : List Char → Option (List (String × List Char))
  | '{' :: rest =>
    if rest = ['}'] then some []
    else if rest.getLast? = some '}' then (cutAt ',' (.outside 0) rest.dropLast).mapM memberText?
    else none
  | _ => none

/-! ## §2 What is not cut

A row of characters that does not end a part is crossed: it leads from one place to another, and no
comma on the way is at the depth where parts are cut. Crossed rows can be appended. -/

theorem prefixFirst_append (first second : List Char) (parts : List (List Char)) :
    prefixFirst (first ++ second) parts = prefixFirst first (prefixFirst second parts) := by
  cases parts <;> simp [prefixFirst]

theorem cutAt_ne_nil (mark : Char) (place : JsonPlace) (cs : List Char) :
    cutAt mark place cs ≠ [] := by
  cases cs with
  | nil => simp [cutAt]
  | cons c rest =>
    rw [cutAt]
    split
    · simp
    · cases cutAt mark (place.next c) rest <;> simp [prefixFirst]

theorem prefixFirst_nil (mark : Char) (place : JsonPlace) (cs : List Char) :
    prefixFirst [] (cutAt mark place cs) = cutAt mark place cs := by
  cases h : cutAt mark place cs with
  | nil => exact absurd h (cutAt_ne_nil mark place cs)
  | cons part parts => rfl

/-- A text is crossed on the way from one place to another: it is not cut. -/
def Crossed (start stop : JsonPlace) (cs : List Char) : Prop :=
  ∀ mark, mark = ',' ∨ mark = ':' → ∀ rest,
    cutAt mark start (cs ++ rest) = prefixFirst cs (cutAt mark stop rest)

theorem crossed_nil (place : JsonPlace) : Crossed place place [] :=
  fun mark _ rest => (prefixFirst_nil mark place rest).symm

theorem Crossed.append {start middle stop : JsonPlace} {first second : List Char}
    (h : Crossed start middle first) (h' : Crossed middle stop second) :
    Crossed start stop (first ++ second) := by
  intro mark hmark rest
  rw [List.append_assoc, h mark hmark, h' mark hmark, prefixFirst_append]

/-- A character is crossed unless it is a mark outside of strings and brackets. -/
theorem crossed_singleton (place : JsonPlace) (c : Char)
    (h : place = .outside 0 → c ≠ ',' ∧ c ≠ ':') : Crossed place (place.next c) [c] := by
  intro mark hmark rest
  -- Both marks are covered at once, so that one invariant serves for both cuts
  have hnot : ¬(place = .outside 0 ∧ c = mark) := by
    rintro ⟨hplace, rfl⟩
    obtain ⟨hcomma, hcolon⟩ := h hplace
    rcases hmark with rfl | rfl
    · exact hcomma rfl
    · exact hcolon rfl
  rw [List.singleton_append, cutAt, if_neg hnot]

/-- Characters that neither open nor close anything, and separate nothing. -/
def IsPlain (c : Char) : Prop :=
  c ≠ '"' ∧ c ≠ '[' ∧ c ≠ '{' ∧ c ≠ ']' ∧ c ≠ '}' ∧ c ≠ ',' ∧ c ≠ ':'

theorem crossed_plain {cs : List Char} (h : ∀ c ∈ cs, IsPlain c) (depth : Nat) :
    Crossed (.outside depth) (.outside depth) cs := by
  induction cs with
  | nil => exact crossed_nil _
  | cons c rest ih =>
    obtain ⟨⟨hquote, hbracket, hbrace, hclose, hend, hcomma, hcolon⟩, hrest⟩ :=
      List.forall_mem_cons.1 h
    have hnext : (JsonPlace.outside depth).next c = .outside depth := by
      simp [JsonPlace.next, hquote, hbracket, hbrace, hclose, hend]
    have hfirst := crossed_singleton (.outside depth) c fun _ => ⟨hcomma, hcolon⟩
    rw [hnext] at hfirst
    exact hfirst.append (ih hrest)

/-! ## §3 Strings -/

theorem crossed_inside {c : Char} (hquote : c ≠ '"') (hbackslash : c ≠ '\\') (depth : Nat) :
    Crossed (.inside depth) (.inside depth) [c] := by
  have hnext : (JsonPlace.inside depth).next c = .inside depth := by
    simp [JsonPlace.next, hquote, hbackslash]
  have hpassed := crossed_singleton (.inside depth) c fun h => by cases h
  rwa [hnext] at hpassed

/-- A backslash and what is behind it. -/
theorem crossed_backslash (c : Char) (depth : Nat) :
    Crossed (.inside depth) (.inside depth) ['\\', c] := by
  have hfirst := crossed_singleton (.inside depth) '\\' fun h => by cases h
  have hsecond := crossed_singleton (.escaped depth) c fun h => by cases h
  exact hfirst.append hsecond

/-- What is written for a character does not end its string. -/
theorem crossed_escape (c : Char) (depth : Nat) :
    Crossed (.inside depth) (.inside depth) (Json.escape c) := by
  obtain ⟨short, heq, -⟩ | ⟨hcontrol, heq⟩ | ⟨⟨hquote, hbackslash, -⟩, heq⟩ := Json.escape_cases c
  · rw [heq]
    exact crossed_backslash short depth
  · -- The escape of a control character is a backslash and five characters that end nothing
    obtain ⟨hhigh, hhigh'⟩ := hexDigit_ne (n := c.toNat / 16) (by omega)
    obtain ⟨hlow, hlow'⟩ := hexDigit_ne (n := c.toNat % 16) (by omega)
    have hzeros : Crossed (.inside depth) (.inside depth) ['0', '0'] :=
      (crossed_inside (by decide) (by decide) depth).append
        (crossed_inside (by decide) (by decide) depth)
    have hdigits := (crossed_inside hhigh hhigh' depth).append (crossed_inside hlow hlow' depth)
    rw [heq]
    exact (crossed_backslash 'u' depth).append (hzeros.append hdigits)
  · rw [heq]
    exact crossed_inside hquote hbackslash depth

theorem crossed_quote (s : String) (depth : Nat) :
    Crossed (.outside depth) (.outside depth) (Json.quote s) := by
  have hopen := crossed_singleton (.outside depth) '"' fun _ => by decide
  have hclose := crossed_singleton (.inside depth) '"' fun h => by cases h
  have hinner : Crossed (.inside depth) (.inside depth) (s.toList.flatMap Json.escape) := by
    induction s.toList with
    | nil => exact crossed_nil _
    | cons c rest ih => exact (crossed_escape c depth).append ih
  exact hopen.append (hinner.append hclose)

theorem readString?_quote (s : String) : readString? (Json.quote s) = some s := by
  have hread := JsonMark.read?_quote s []
  rw [Json.quote, List.cons_append, readString?, hread]
  simp

/-! ## §4 Values -/

/-- Words and numbers are made of plain characters. -/
theorem isPlain_of_atom {c : Char} (h : JsonMark.isNumberChar c = true ∨ c.isAlpha = true) :
    IsPlain c := by
  refine ⟨?_, ?_, ?_, ?_, ?_, ?_, ?_⟩ <;>
  · rintro rfl
    rcases h with h | h <;> cases h

theorem crossed_word {word : List Char} (h : word.all Char.isAlpha = true) (depth : Nat) :
    Crossed (.outside depth) (.outside depth) word := by
  apply crossed_plain
  intro c hc
  exact isPlain_of_atom (.inr (List.all_eq_true.1 h c hc))

theorem crossed_numberChars (n : Number) (depth : Nat) :
    Crossed (.outside depth) (.outside depth) (Json.numberChars n) := by
  apply crossed_plain
  intro c hc
  exact isPlain_of_atom (.inl ((Json.isLiteral_numberChars n).isNumberChar c hc))

/-- Brackets are crossed with what is crossed between them. -/
theorem crossed_enclosed {opener closer : Char} {inner : List Char} {depth : Nat}
    (hopener : opener = '[' ∨ opener = '{') (hcloser : closer = ']' ∨ closer = '}')
    (h : Crossed (.outside (depth + 1)) (.outside (depth + 1)) inner) :
    Crossed (.outside depth) (.outside depth) (opener :: inner ++ [closer]) := by
  have hopen : Crossed (.outside depth) (.outside (depth + 1)) [opener] := by
    rcases hopener with rfl | rfl <;> exact crossed_singleton _ _ fun _ => by decide
  have hclose : Crossed (.outside (depth + 1)) (.outside depth) [closer] := by
    rcases hcloser with rfl | rfl <;> exact crossed_singleton _ _ fun _ => by decide
  exact hopen.append (h.append hclose)

/-- A mark that stands in brackets is crossed. -/
theorem crossed_mark {mark : Char} (h : mark = ',' ∨ mark = ':') (depth : Nat) :
    Crossed (.outside (depth + 1)) (.outside (depth + 1)) [mark] := by
  rcases h with rfl | rfl <;> exact crossed_singleton _ _ fun h => by cases h

mutual

/-- **A value that is written is crossed as a whole**, wherever it stands. -/
theorem crossed_compactChars : ∀ (v : Json) (depth : Nat),
    Crossed (.outside depth) (.outside depth) (Json.compactChars v)
  | .null, depth => crossed_word rfl depth
  | .bool true, depth => crossed_word rfl depth
  | .bool false, depth => crossed_word rfl depth
  | .number n, depth => crossed_numberChars n depth
  | .string s, depth => crossed_quote s depth
  | .array items, depth =>
    crossed_enclosed (.inl rfl) (.inl rfl) (crossed_compactItems items depth)
  | .object members, depth =>
    crossed_enclosed (.inr rfl) (.inr rfl) (crossed_compactMembers members depth)

theorem crossed_compactItems : ∀ (items : List Json) (depth : Nat),
    Crossed (.outside (depth + 1)) (.outside (depth + 1)) (Json.compactItems items)
  | [], _ => crossed_nil _
  | [item], depth => crossed_compactChars item (depth + 1)
  | item :: next :: more, depth => by
    have hnext := crossed_compactItems (next :: more) depth
    rw [Json.compactItems]
    exact (crossed_compactChars item (depth + 1)).append
      ((crossed_mark (.inl rfl) depth).append hnext)

theorem crossed_compactMembers : ∀ (members : List (String × Json)) (depth : Nat),
    Crossed (.outside (depth + 1)) (.outside (depth + 1)) (Json.compactMembers members)
  | [], _ => crossed_nil _
  | [(name, value)], depth => by
    rw [Json.compactMembers]
    exact (crossed_quote name (depth + 1)).append
      ((crossed_mark (.inr rfl) depth).append (crossed_compactChars value (depth + 1)))
  | (name, value) :: next :: more, depth => by
    -- The comma is the only mark between members, and the depth behind it is the same
    have hnext := crossed_compactMembers (next :: more) depth
    have hvalue := (crossed_mark (.inr rfl) depth).append (crossed_compactChars value (depth + 1))
    rw [Json.compactMembers, List.append_assoc]
    exact (crossed_quote name (depth + 1)).append
      (hvalue.append ((crossed_mark (.inl rfl) depth).append hnext))

end

/-! ## §5 Members -/

/-- A text is cut at a mark behind what is crossed. -/
theorem Crossed.cutAt_mark {cs : List Char} (h : Crossed (.outside 0) (.outside 0) cs) {mark : Char}
    (hmark : mark = ',' ∨ mark = ':') (rest : List Char) :
    cutAt mark (.outside 0) (cs ++ mark :: rest) = cs :: cutAt mark (.outside 0) rest := by
  rw [h mark hmark, cutAt, if_pos ⟨rfl, rfl⟩, prefixFirst, List.append_nil]

theorem Crossed.cutAt_eq {cs : List Char} (h : Crossed (.outside 0) (.outside 0) cs) {mark : Char}
    (hmark : mark = ',' ∨ mark = ':') : cutAt mark (.outside 0) cs = [cs] := by
  have hcut := h mark hmark []
  rwa [List.append_nil, cutAt, prefixFirst, List.append_nil] at hcut

/-- The text of a member. -/
def memberChars (m : String × Json) : List Char :=
  Json.quote m.1 ++ ':' :: Json.compactChars m.2

theorem memberText?_memberChars (m : String × Json) :
    memberText? (memberChars m) = some (m.1, Json.compactChars m.2) := by
  rw [memberText?, memberChars, (crossed_quote m.1 0).cutAt_mark (.inr rfl),
    (crossed_compactChars m.2 0).cutAt_eq (.inr rfl)]
  simp [readString?_quote]

/-- The colon of a member is no comma, and the rest of it is crossed. -/
theorem cutAt_memberChars (m : String × Json) (rest : List Char) :
    cutAt ',' (.outside 0) (memberChars m ++ rest) =
      prefixFirst (memberChars m) (cutAt ',' (.outside 0) rest) := by
  have hcomma : (',' : Char) = ',' ∨ ',' = ':' := .inl rfl
  have hcolon : cutAt ',' (.outside 0) (':' :: (Json.compactChars m.2 ++ rest)) =
      prefixFirst [':'] (cutAt ',' (.outside 0) (Json.compactChars m.2 ++ rest)) := by
    rw [cutAt, if_neg (by decide)]
    rfl
  rw [memberChars, List.append_assoc, crossed_quote m.1 0 _ hcomma, List.cons_append, hcolon,
    crossed_compactChars m.2 0 _ hcomma, ← prefixFirst_append, ← prefixFirst_append,
    List.append_assoc, List.singleton_append]

theorem cutAt_compactMembers {members : List (String × Json)} (h : members ≠ []) :
    cutAt ',' (.outside 0) (Json.compactMembers members) = members.map memberChars := by
  induction members with
  | nil => exact absurd rfl h
  | cons m rest ih =>
    -- The compact layout puts commas between members, so the last one stands apart
    cases rest with
    | nil =>
      have hcut := cutAt_memberChars m []
      rw [List.append_nil, cutAt, prefixFirst, List.append_nil] at hcut
      rw [Json.compactMembers]
      exact hcut
    | cons next more =>
      have hchars : Json.compactMembers (m :: next :: more) =
          memberChars m ++ ',' :: Json.compactMembers (next :: more) := by
        simp [Json.compactMembers, memberChars]
      rw [hchars, cutAt_memberChars, cutAt, if_pos ⟨rfl, rfl⟩, ih (by simp), prefixFirst,
        List.append_nil]
      rfl

theorem memberTexts_memberChars (members : List (String × Json)) :
    (members.map memberChars).mapM memberText? =
      some (members.map fun m => (m.1, Json.compactChars m.2)) := by
  induction members with
  | nil => rfl
  | cons m rest ih =>
    rw [List.map_cons, List.mapM_cons, memberText?_memberChars, ih]
    rfl

/-- **The members of a compact text**, with the texts of their values as they are written. -/
theorem memberTexts?_compact (members : List (String × Json)) :
    memberTexts? (Json.compactChars (.object members)) =
      some (members.map fun m => (m.1, Json.compactChars m.2)) := by
  have hchars : Json.compactChars (.object members) =
      '{' :: (Json.compactMembers members ++ ['}']) := by
    rw [Json.compactChars, List.cons_append]
  rw [hchars, memberTexts?]
  by_cases hnone : members = []
  · subst hnone
    rfl
  · -- A name stands behind the brace
    have hsome : Json.compactMembers members ++ ['}'] ≠ ['}'] := by
      rcases members with _ | ⟨m, _ | ⟨next, more⟩⟩
      · exact absurd rfl hnone
      · simp [Json.compactMembers, Json.quote]
      · simp [Json.compactMembers, Json.quote]
    rw [if_neg hsome, if_pos (by simp), List.dropLast_concat, cutAt_compactMembers hnone,
      memberTexts_memberChars]

/-- A comma in a string or in an array cuts nothing. -/
example : memberTexts? "\x7b\"a\":[1,\",\"],\"b\":null\x7d".toList =
    some [("a", "[1,\",\"]".toList), ("b", "null".toList)] := by
  decide +kernel

end QueryWeave
