import QueryWeave.Proofs.Lexeme.Spans

/-!
# Checked Slices

A text addressed by bytes. An offset is good where a character begins or the text ends; a slice
between two offsets exists if both are good and in order. An operation that takes a slice that does
not exist has no result at all, so that a computation with a result has taken only slices that
exist.

- `slice?_isSome_iff`, `range?_isSome_iff`: which slices exist.
- `slice?_of_after?`: what stands in front of the rest of a text can be sliced.
-/

namespace QueryWeave.Bytes

/-! ## §1 Offsets -/

/-- Cut a text a number of bytes behind its beginning. It cannot be cut inside a character, nor
behind its end, and has no result there, as an index out of range or off a character boundary would
stop the program. -/
def cut? : Nat → List Char → Option (List Char × List Char)
  | 0, cs => some ([], cs)
  | _ + 1, [] => none
  | n + 1, c :: rest =>
    if c.utf8Size ≤ n + 1 then
      (cut? (n + 1 - c.utf8Size) rest).map fun parts => (c :: parts.1, parts.2)
    else none

/-- An offset at which a character begins, or the text ends. -/
def IsBoundary (source : List Char) (offset : Nat) : Prop :=
  ∃ front back, front ++ back = source ∧ byteLength front = offset

theorem byteLength_eq_zero_iff {cs : List Char} : byteLength cs = 0 ↔ cs = [] := by
  cases cs with
  | nil => simp
  | cons c rest =>
    have hpos := Char.utf8Size_pos c
    simp only [byteLength, reduceCtorEq, iff_false]
    omega

/-- Characters are passed over in two steps. -/
theorem byteLength_take_add (first second : Nat) (cs : List Char) :
    byteLength (cs.take (first + second)) =
      byteLength (cs.take first) + byteLength ((cs.drop first).take second) := by
  rw [List.take_add, byteLength_append]

theorem cut?_append (front back : List Char) :
    cut? (byteLength front) (front ++ back) = some (front, back) := by
  induction front with
  | nil => simp [cut?]
  | cons c rest ih =>
    have hpos := Char.utf8Size_pos c
    obtain ⟨n, hn⟩ : ∃ n, byteLength (c :: rest) = n + 1 := by
      refine ⟨c.utf8Size - 1 + byteLength rest, ?_⟩
      simp only [byteLength]
      omega
    -- What is left behind `c` is the length of `rest`
    have hrest : n + 1 - c.utf8Size = byteLength rest := by
      simp only [byteLength] at hn
      omega
    have hle : c.utf8Size ≤ n + 1 := by
      simp only [byteLength] at hn
      omega
    rw [hn, List.cons_append, cut?, if_pos hle, hrest, ih]
    rfl

theorem cut?_inversion {offset : Nat} {source front back : List Char}
    (h : cut? offset source = some (front, back)) :
    front ++ back = source ∧ byteLength front = offset := by
  fun_induction cut? offset source generalizing front back with
  | case1 cs =>
    cases h
    exact ⟨rfl, rfl⟩
  | case2 n => cases h
  | case3 n c rest hle ih =>
    -- The first character is in front, and the rest is cut that many bytes earlier
    obtain ⟨⟨front', back'⟩, hparts, heq⟩ := Option.map_eq_some_iff.1 h
    cases heq
    obtain ⟨happend, hlength⟩ := ih hparts
    refine ⟨by rw [List.cons_append, happend], ?_⟩
    simp only [byteLength, hlength]
    omega
  | case4 n c rest hle => cases h

/-! ## §2 Slices -/

/-- The rest of a text from an offset on. -/
def after? (source : List Char) (offset : Nat) : Option (List Char) :=
  (cut? offset source).map Prod.snd

/-- The characters of a text in a range of bytes. -/
def slice? (source : List Char) (span : Span) : Option (List Char) :=
  (cut? span.stop source).bind fun parts => after? parts.1 span.start

theorem after?_append (front back : List Char) :
    after? (front ++ back) (byteLength front) = some back := by
  rw [after?, cut?_append]
  rfl

theorem after?_inversion {source rest : List Char} {offset : Nat}
    (h : after? source offset = some rest) :
    ∃ front, front ++ rest = source ∧ byteLength front = offset := by
  obtain ⟨⟨front, back⟩, hcut, rfl⟩ := Option.map_eq_some_iff.1 h
  exact ⟨front, cut?_inversion hcut⟩

@[simp] theorem after?_zero (source : List Char) : after? source 0 = some source :=
  after?_append [] source

/-- The rest behind a part of the rest. -/
theorem after?_add {source part rest : List Char} {offset : Nat}
    (h : after? source offset = some (part ++ rest)) :
    after? source (offset + byteLength part) = some rest := by
  obtain ⟨front, rfl, rfl⟩ := after?_inversion h
  rw [← List.append_assoc, ← byteLength_append]
  exact after?_append (front ++ part) rest

/-- The rest behind the first character of the rest. -/
theorem after?_cons {source rest : List Char} {offset : Nat} {c : Char}
    (h : after? source offset = some (c :: rest)) :
    after? source (offset + c.utf8Size) = some rest :=
  @after?_add source [c] rest offset h

/-- The rest behind the first characters of the rest. -/
theorem after?_take {source rest : List Char} {offset : Nat} (n : Nat)
    (h : after? source offset = some rest) :
    after? source (offset + byteLength (rest.take n)) = some (rest.drop n) := by
  apply after?_add
  rwa [List.take_append_drop]

/-- A part at the front of the rest is a slice. -/
theorem slice?_of_after? {source part rest : List Char} {offset : Nat}
    (h : after? source offset = some (part ++ rest)) :
    slice? source ⟨offset, offset + byteLength part⟩ = some part := by
  obtain ⟨front, rfl, rfl⟩ := after?_inversion h
  rw [slice?, ← List.append_assoc, ← byteLength_append, cut?_append]
  exact after?_append front part

/-- The rest behind a part of the rest, by where the part ends. -/
theorem after?_of_split {source text : List Char} {offset stop : Nat} (part rest : List Char)
    (h : after? source offset = some text) (hsplit : text = part ++ rest)
    (hstop : offset + byteLength part = stop) : after? source stop = some rest := by
  subst hsplit hstop
  exact after?_add h

/-- A part at the front of the rest, by where it ends. -/
theorem slice?_of_split {source text : List Char} {offset stop : Nat} (part rest : List Char)
    (h : after? source offset = some text) (hsplit : text = part ++ rest)
    (hstop : offset + byteLength part = stop) : slice? source ⟨offset, stop⟩ = some part := by
  subst hsplit hstop
  exact slice?_of_after? h

/-- There is a character behind an offset only if the text goes on there. -/
theorem lt_of_after? {source rest : List Char} {offset : Nat} {c : Char}
    (h : after? source offset = some (c :: rest)) : offset < byteLength source := by
  obtain ⟨front, rfl, rfl⟩ := after?_inversion h
  have hpos := Char.utf8Size_pos c
  simp only [byteLength_append, byteLength]
  omega

theorem after?_isSome_iff {source : List Char} {offset : Nat} :
    (after? source offset).isSome ↔ IsBoundary source offset := by
  constructor
  · intro h
    obtain ⟨rest, hrest⟩ := Option.isSome_iff_exists.1 h
    obtain ⟨front, happend, hlength⟩ := after?_inversion hrest
    exact ⟨front, rest, happend, hlength⟩
  · rintro ⟨front, rest, rfl, rfl⟩
    rw [after?_append]
    rfl

/-- Two ways to cut a text, the shorter front first. -/
theorem append_of_byteLength_le {front back front' back' : List Char}
    (h : front ++ back = front' ++ back') (hle : byteLength front ≤ byteLength front') :
    ∃ part, front ++ part = front' ∧ part ++ back' = back := by
  rcases List.append_eq_append_iff.1 h with ⟨part, hfront, hback⟩ | ⟨part, hfront, hback⟩
  · exact ⟨part, hfront.symm, hback.symm⟩
  · -- The second front is no longer than the first, so nothing stands between them
    have hpart : part = [] := by
      rw [hfront, byteLength_append] at hle
      exact byteLength_eq_zero_iff.1 (by omega)
    subst hpart
    exact ⟨[], by simpa using hfront, by simpa using hback⟩

/-- **A slice exists exactly between good offsets that are in order.** -/
theorem slice?_isSome_iff {source : List Char} {span : Span} :
    (slice? source span).isSome ↔
      span.start ≤ span.stop ∧ span.stop ≤ byteLength source ∧
        IsBoundary source span.start ∧ IsBoundary source span.stop := by
  obtain ⟨start, stop⟩ := span
  constructor
  · intro h
    -- The text was cut at the end of the span, and its front again at the beginning
    obtain ⟨part, hpart⟩ := Option.isSome_iff_exists.1 h
    obtain ⟨⟨front, back⟩, hcut, hafter⟩ := Option.bind_eq_some_iff.1 hpart
    obtain ⟨rfl, rfl⟩ := cut?_inversion hcut
    obtain ⟨lead, rfl, rfl⟩ := after?_inversion hafter
    exact ⟨by simp, by simp, ⟨lead, part ++ back, by simp, rfl⟩, ⟨lead ++ part, back, rfl, rfl⟩⟩
  · rintro ⟨hle, -, ⟨front, back, rfl, rfl⟩, ⟨front', back', heq, rfl⟩⟩
    obtain ⟨part, rfl, rfl⟩ := append_of_byteLength_le heq.symm hle
    have hslice := slice?_of_after? (after?_append front (part ++ back'))
    rw [byteLength_append, hslice]
    rfl

/-! ## §3 Ranges of rows -/

/-- The members of a row from one index to another, the second excluded. -/
def range? {α : Type} (row : List α) (start stop : Nat) : Option (List α) :=
  if start ≤ stop ∧ stop ≤ row.length then some ((row.take stop).drop start) else none

theorem range?_isSome_iff {α : Type} {row : List α} {start stop : Nat} :
    (range? row start stop).isSome ↔ start ≤ stop ∧ stop ≤ row.length := by
  simp [range?]

/-- A part of a row is the range that it takes up. -/
theorem range?_of_split {α : Type} {row : List α} {start stop : Nat} (front part back : List α)
    (h : row = front ++ (part ++ back)) (hstart : front.length = start)
    (hstop : start + part.length = stop) : range? row start stop = some part := by
  subst h hstart hstop
  rw [range?, if_pos (by simp), ← List.append_assoc, ← List.length_append, List.take_left,
    List.drop_left]

end QueryWeave.Bytes
