import QueryWeave.Proofs.Json.Numbers

/-!
# Compact Texts

A value that is written without blanks is read as a value wherever a value may stand: what is read
of it depends only on how deep it stands, since containers that are nested too deeply have no value.

- `Draft.written`: what is read of a value that is written at a depth.
- `readOn_compactChars`: a reader that awaits a value takes the whole value.
- `ofText?_compact`: every compact text is well formed.
-/

namespace QueryWeave

/-! ## §1 What is read of a value -/

namespace Draft

mutual

/-- What is read of a value with `depth` containers around it. A number is read from its digits. -/
def written (depth : Nat) : Json → Draft
  | .null => .null
  | .bool value => .bool value
  | .number value => (JsonMark.numberDraft? (Json.numberChars value)).getD .beyond
  | .string value => .string value
  | .array items =>
    if maxNesting < depth + 1 then .beyond else .array (writtenItems (depth + 1) items)
  | .object members =>
    if maxNesting < depth + 1 then .beyond else .object (writtenMembers (depth + 1) members)

/-- What is read of the items of an array. -/
def writtenItems (depth : Nat) : List Json → List Draft
  | [] => []
  | item :: rest => written depth item :: writtenItems depth rest

/-- What is read of the members of an object. -/
def writtenMembers (depth : Nat) : List (String × Json) → List (Option String × Draft)
  | [] => []
  | (name, value) :: rest => (some name, written depth value) :: writtenMembers depth rest

end

end Draft

/-! ## §2 Reading mark by mark

The reader works mark by mark, with a stack of open containers. What one mark does to it is said
here for each mark that a layout has; the values are then read by recursion on their structure. -/

namespace Reading

/-- What a reader makes of the text that follows. -/
def readOn (r : Reading) (cs : List Char) : Option Reading :=
  JsonMark.ofChars? cs >>= fun marks => marks.foldlM step? r

theorem readOn_nil (r : Reading) : r.readOn [] = some r := by
  rw [readOn, JsonMark.ofChars?]
  rfl

/-- A reader takes the first mark, and goes on with what is behind it. -/
theorem readOn_mark (r : Reading) {c : Char} {more : List Char} {mark : JsonMark} {length : Nat}
    (hblank : JsonMark.isBlank c = false) (h : JsonMark.read? c more = some (mark, length)) :
    r.readOn (c :: more) = r.step? mark >>= (readOn · (more.drop length)) := by
  rw [readOn, JsonMark.ofChars?, hblank, h]
  simp only [Bool.false_eq_true, if_false, Option.bind_eq_bind, Option.bind_map]
  cases hmarks : JsonMark.ofChars? (more.drop length) with
  | none =>
    -- A text that is not cut into marks fails, whatever the reader does with the first
    cases r.step? mark <;> simp [readOn, hmarks]
  | some marks =>
    simp only [Option.bind_some, Function.comp, List.foldlM_cons]
    cases r.step? mark <;> simp [readOn, hmarks]

theorem readOn_punctuation (r : Reading) {c : Char} (h : JsonMark.isPunctuation c = true)
    (more : List Char) :
    r.readOn (c :: more) = r.step? (.punctuation c) >>= (readOn · more) := by
  have hread : JsonMark.read? c more = some (.punctuation c, 0) := by
    rw [JsonMark.read?, if_pos h]
  exact readOn_mark r (JsonMark.isPunctuation_excludes h).1 hread

theorem readOn_quote (r : Reading) (s : String) (rest : List Char) :
    r.readOn (Json.quote s ++ rest) = r.step? (.string (some s)) >>= (readOn · rest) := by
  have hquote : Json.quote s ++ rest = '"' :: (s.toList.flatMap Json.escape ++ '"' :: rest) := by
    simp [Json.quote]
  have hdrop : (s.toList.flatMap Json.escape ++ '"' :: rest).drop
      (s.toList.flatMap Json.escape ++ ['"']).length = rest := by
    rw [List.append_cons _ '"' rest, List.drop_left]
  rw [hquote, readOn_mark r rfl (JsonMark.read?_quote s rest), hdrop]

/-- Whether a text begins with what may stand in no number and no word. -/
def EndsAtom (rest : List Char) : Prop :=
  rest.head?.all (fun c => !JsonMark.isNumberChar c && !c.isAlpha) = true

theorem endsAtom_punctuation {c : Char} (h : JsonMark.isPunctuation c = true) (rest : List Char) :
    EndsAtom (c :: rest) := by
  obtain ⟨-, hnumber, hletter, -⟩ := JsonMark.isPunctuation_excludes h
  simp [EndsAtom, hnumber, hletter]

/-- The reader awaits a value. -/
def AwaitsValue (awaited : Awaited) : Prop :=
  awaited = .value ∨ awaited = .valueOrClose

theorem step?_begin {awaited : Awaited} (h : AwaitsValue awaited) (stack : List OpenContainer)
    {mark : JsonMark} (hmark : closing? mark = none) :
    step? ⟨stack, awaited⟩ mark = begin? mark stack := by
  rcases h with rfl | rfl
  · rfl
  · simp [step?, hmark]

theorem readOn_number {awaited : Awaited} (h : AwaitsValue awaited) (stack : List OpenContainer)
    (n : Number) {rest : List Char} (hrest : EndsAtom rest) :
    readOn ⟨stack, awaited⟩ (Json.numberChars n ++ rest) =
      readOn (complete ((JsonMark.numberDraft? (Json.numberChars n)).getD .beyond) stack) rest := by
  -- The layout of the number does not matter, only that it is a literal
  have hliteral := Json.isLiteral_numberChars n
  obtain ⟨c, more, heq, hstart⟩ := hliteral.exists_cons
  rw [heq] at hliteral ⊢
  have hend : rest.head?.all (fun d => !JsonMark.isNumberChar d) = true := by
    cases rest with
    | nil => rfl
    | cons d others => simp_all [EndsAtom]
  obtain ⟨draft, hdraft, hread⟩ := JsonMark.read?_isLiteral hliteral hend
  have hblank : JsonMark.isBlank c = false := by
    by_contra hnot
    simp only [JsonMark.isBlank, Bool.not_eq_false, Bool.or_eq_true, decide_eq_true_eq] at hnot
    -- Blanks are neither signs nor digits
    rcases hnot with ((rfl | rfl) | rfl) | rfl <;> exact absurd hstart (by decide)
  rw [List.cons_append, readOn_mark _ hblank hread, step?_begin h _ rfl, hdraft, List.drop_left]
  rfl

theorem readOn_word {awaited : Awaited} (h : AwaitsValue awaited) (stack : List OpenContainer)
    {c : Char} {more rest : List Char} {draft : Draft} (hc : c = 'n' ∨ c = 't' ∨ c = 'f')
    (hmore : more.all Char.isAlpha = true) (hword : JsonMark.wordDraft? (c :: more) = some draft)
    (hrest : EndsAtom rest) :
    readOn ⟨stack, awaited⟩ (c :: more ++ rest) = readOn (complete draft stack) rest := by
  -- The word ends here, because no letter follows an atom
  have hend : rest.head?.all (fun d => !d.isAlpha) = true := by
    cases rest with
    | nil => rfl
    | cons d others => simp_all [EndsAtom]
  have hread := JsonMark.read?_word hc hmore hword hend
  have hblank : JsonMark.isBlank c = false := by
    rcases hc with rfl | rfl | rfl <;> rfl
  rw [List.cons_append, readOn_mark _ hblank hread, step?_begin h _ rfl, List.drop_left]
  rfl

theorem readOn_closeArray {awaited : Awaited}
    (h : awaited = .valueOrClose ∨ awaited = .commaOrClose) (done : List Draft)
    (outer : List OpenContainer) (rest : List Char) :
    readOn ⟨.array done :: outer, awaited⟩ (']' :: rest) =
      readOn
        (complete (if maxNesting < outer.length + 1 then .beyond else .array done.reverse) outer)
        rest := by
  rw [readOn_punctuation _ rfl]
  rcases h with rfl | rfl <;> rfl

theorem readOn_closeObject {awaited : Awaited}
    (h : awaited = .nameOrClose ∨ awaited = .commaOrClose) (done : List (Option String × Draft))
    (name : Option String) (outer : List OpenContainer) (rest : List Char) :
    readOn ⟨.object done name :: outer, awaited⟩ ('}' :: rest) =
      readOn
        (complete (if maxNesting < outer.length + 1 then .beyond else .object done.reverse) outer)
        rest := by
  rw [readOn_punctuation _ rfl]
  rcases h with rfl | rfl <;> rfl

/-- The reader takes the name of a member, and awaits its value behind the colon. -/
theorem readOn_name {awaited : Awaited} (h : awaited = .name ∨ awaited = .nameOrClose)
    (done : List (Option String × Draft)) (previous : Option String) (outer : List OpenContainer)
    (name : String) (rest : List Char) :
    readOn ⟨.object done previous :: outer, awaited⟩ (Json.quote name ++ ':' :: rest) =
      readOn ⟨.object done (some name) :: outer, .value⟩ rest := by
  have hname : step? ⟨.object done previous :: outer, awaited⟩ (.string (some name)) =
      some ⟨.object done (some name) :: outer, .colon⟩ := by
    rcases h with rfl | rfl <;> rfl
  rw [readOn_quote, hname]
  exact readOn_punctuation _ rfl rest

/-! ## §3 Reading values -/

mutual

/-- **A reader that awaits a value takes a value that is written**, and nothing else. The recursion
is that of the value; what is behind it has to end an atom, so that a number does not go on there.
-/
theorem readOn_compactChars : ∀ (v : Json) (stack : List OpenContainer) {awaited : Awaited}
    {rest : List Char}, AwaitsValue awaited → EndsAtom rest →
    readOn ⟨stack, awaited⟩ (Json.compactChars v ++ rest) =
      readOn (complete (Draft.written stack.length v) stack) rest
  | .null, stack, awaited, rest, h, hrest => by
    rw [Json.compactChars, Draft.written]
    exact readOn_word h stack (.inl rfl) rfl rfl hrest
  | .bool true, stack, awaited, rest, h, hrest => by
    rw [Json.compactChars, Draft.written]
    exact readOn_word h stack (.inr (.inl rfl)) rfl rfl hrest
  | .bool false, stack, awaited, rest, h, hrest => by
    rw [Json.compactChars, Draft.written]
    exact readOn_word h stack (.inr (.inr rfl)) rfl rfl hrest
  | .number n, stack, awaited, rest, h, hrest => by
    rw [Json.compactChars, Draft.written]
    exact readOn_number h stack n hrest
  | .string s, stack, awaited, rest, h, hrest => by
    rw [Json.compactChars, Draft.written, readOn_quote, step?_begin h _ rfl]
    rfl
  | .array [], stack, awaited, rest, h, hrest => by
    have hchars : Json.compactChars (.array []) ++ rest = '[' :: ']' :: rest := by
      simp [Json.compactChars, Json.compactItems]
    rw [hchars, readOn_punctuation _ rfl, step?_begin h _ rfl, Draft.written, Draft.writtenItems]
    exact readOn_closeArray (.inl rfl) [] stack rest
  | .array (item :: more), stack, awaited, rest, h, hrest => by
    -- The bracket opens an array on the stack, which gathers the items until it is closed
    have hchars : Json.compactChars (.array (item :: more)) ++ rest =
        '[' :: (Json.compactItems (item :: more) ++ ']' :: rest) := by
      simp [Json.compactChars]
    have hitems := readOn_compactItems (item :: more) stack [] (by simp) (.inr rfl)
      (endsAtom_punctuation (c := ']') rfl rest)
    rw [List.append_nil] at hitems
    rw [hchars, readOn_punctuation _ rfl, step?_begin h _ rfl, Draft.written]
    refine hitems.trans ?_
    rw [readOn_closeArray (.inr rfl), List.reverse_reverse]
  | .object [], stack, awaited, rest, h, hrest => by
    have hchars : Json.compactChars (.object []) ++ rest = '{' :: '}' :: rest := by
      simp [Json.compactChars, Json.compactMembers]
    rw [hchars, readOn_punctuation _ rfl, step?_begin h _ rfl, Draft.written, Draft.writtenMembers]
    exact readOn_closeObject (.inl rfl) [] none stack rest
  | .object ((name, value) :: more), stack, awaited, rest, h, hrest => by
    have hchars : Json.compactChars (.object ((name, value) :: more)) ++ rest =
        '{' :: (Json.compactMembers ((name, value) :: more) ++ '}' :: rest) := by
      simp [Json.compactChars]
    have hmembers := readOn_compactMembers ((name, value) :: more) stack [] none (by simp)
      (.inr rfl) (endsAtom_punctuation (c := '}') rfl rest)
    rw [List.append_nil] at hmembers
    rw [hchars, readOn_punctuation _ rfl, step?_begin h _ rfl, Draft.written]
    refine hmembers.trans ?_
    rw [readOn_closeObject (.inr rfl), List.reverse_reverse]

/-- A reader in an array takes the items one after the other. -/
theorem readOn_compactItems : ∀ (items : List Json) (outer : List OpenContainer)
    (done : List Draft) {awaited : Awaited} {rest : List Char}, items ≠ [] →
    AwaitsValue awaited → EndsAtom rest →
    readOn ⟨.array done :: outer, awaited⟩ (Json.compactItems items ++ rest) =
      readOn ⟨.array ((Draft.writtenItems (outer.length + 1) items).reverse ++ done) :: outer,
        .commaOrClose⟩ rest
  | [], _, _, _, _, hsome, _, _ => absurd rfl hsome
  | [item], outer, done, awaited, rest, _, h, hrest => by
    rw [Json.compactItems, readOn_compactChars item _ h hrest]
    rfl
  | item :: next :: more, outer, done, awaited, rest, _, h, hrest => by
    -- Behind the comma, the other items are put on top of this one
    have hnext := readOn_compactItems (next :: more) outer
      (Draft.written (outer.length + 1) item :: done) (by simp) (.inl rfl) hrest
    rw [Json.compactItems, List.append_assoc, List.cons_append,
      readOn_compactChars item _ h (endsAtom_punctuation rfl _), readOn_punctuation _ rfl,
      Draft.writtenItems, List.reverse_cons, List.append_assoc]
    exact hnext

/-- A reader in an object takes the members one after the other. -/
theorem readOn_compactMembers : ∀ (members : List (String × Json)) (outer : List OpenContainer)
    (done : List (Option String × Draft)) (previous : Option String)
    {awaited : Awaited} {rest : List Char}, members ≠ [] →
    awaited = .name ∨ awaited = .nameOrClose → EndsAtom rest →
    readOn ⟨.object done previous :: outer, awaited⟩ (Json.compactMembers members ++ rest) =
      readOn ⟨.object ((Draft.writtenMembers (outer.length + 1) members).reverse ++ done) none ::
        outer, .commaOrClose⟩ rest
  | [], _, _, _, _, _, hsome, _, _ => absurd rfl hsome
  | [(name, value)], outer, done, previous, awaited, rest, _, h, hrest => by
    rw [Json.compactMembers, List.append_assoc, List.cons_append, readOn_name h,
      readOn_compactChars value _ (.inl rfl) hrest]
    rfl
  | (name, value) :: next :: more, outer, done, previous, awaited, rest, _, h, hrest => by
    -- Behind the comma, the other members are put on top of this one
    have hnext := readOn_compactMembers (next :: more) outer
      ((some name, Draft.written (outer.length + 1) value) :: done) none (by simp) (.inl rfl) hrest
    have hchars : Json.compactMembers ((name, value) :: next :: more) ++ rest =
        Json.quote name ++ ':' :: (Json.compactChars value ++
          ',' :: (Json.compactMembers (next :: more) ++ rest)) := by
      simp [Json.compactMembers]
    rw [hchars, readOn_name h, readOn_compactChars value _ (.inl rfl) (endsAtom_punctuation rfl _),
      readOn_punctuation _ rfl, Draft.writtenMembers, List.reverse_cons, List.append_assoc]
    exact hnext

end

end Reading

/-- **Every compact text is well formed**, and is read as the value that it was written for. -/
theorem Draft.ofText?_compact (v : Json) : Draft.ofText? v.compact = some (Draft.written 0 v) := by
  have hread := @Reading.readOn_compactChars v [] .value [] (.inl rfl) rfl
  -- On an empty stack the value is all there is
  rw [List.append_nil, Reading.readOn_nil, Reading.readOn] at hread
  rw [Draft.ofText?, Json.compact, String.toList_ofList]
  obtain ⟨marks, hmarks, hfold⟩ := Option.bind_eq_some_iff.1 hread
  simp only [hmarks, Option.bind_eq_bind, Option.bind_some]
  rw [Reading.start, hfold]
  rfl

end QueryWeave
