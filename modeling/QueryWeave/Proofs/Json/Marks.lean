import Mathlib.Data.List.Basic
import QueryWeave.Json.Reader
import QueryWeave.Json.Writer

/-!
# Marks as They Are Written

Strings and words are each read as one mark. A string is read back as it was, since what is escaped
is what a string may not hold: a character is written as a short escape, as its number, or as
itself, and none of these closes the string.

- `Json.escape_cases`: how a character is written.
- `JsonMark.read?_quote`: a string is read back.
- `JsonMark.read?_word`: a word is read up to what is no letter.
-/

namespace QueryWeave

/-! ## §1 Strings -/

/-- A character is written as a short escape, as its number, or as itself. -/
theorem Json.escape_cases (c : Char) :
    (∃ short, escape c = ['\\', short] ∧ short ≠ 'u' ∧ StringUnit.shortEscape? short = some c) ∨
      (c.toNat < 0x20 ∧ escape c =
        ['\\', 'u', '0', '0', hexDigit (c.toNat / 16), hexDigit (c.toNat % 16)]) ∨
      (c ≠ '"' ∧ c ≠ '\\' ∧ ¬c.toNat < 0x20) ∧ escape c = [c] := by
  rw [escape]
  -- Seven characters have a short escape, the other control characters are numbered
  split_ifs with hquote hbackslash hback hform hline hreturn htab hcontrol
  · exact .inl ⟨'"', rfl, by decide, by rw [hquote]; rfl⟩
  · exact .inl ⟨'\\', rfl, by decide, by rw [hbackslash]; rfl⟩
  · exact .inl ⟨'b', rfl, by decide, by rw [hback]; rfl⟩
  · exact .inl ⟨'f', rfl, by decide, by rw [hform]; rfl⟩
  · exact .inl ⟨'n', rfl, by decide, by rw [hline]; rfl⟩
  · exact .inl ⟨'r', rfl, by decide, by rw [hreturn]; rfl⟩
  · exact .inl ⟨'t', rfl, by decide, by rw [htab]; rfl⟩
  · exact .inr (.inl ⟨hcontrol, rfl⟩)
  · exact .inr (.inr ⟨⟨hquote, hbackslash, hcontrol⟩, rfl⟩)

namespace StringUnit

/-- A unit below the surrogates is a character of its own, whatever it stands in front of. -/
theorem join?_unit_cons {value : Nat} (h : value < 0xD800) (units : List StringUnit) :
    join? (.unit value :: units) = (join? units).map (Char.ofNat value :: ·) := by
  have hleading : isLeading value = false := by simp [isLeading]; omega
  have htrailing : isTrailing value = false := by simp [isTrailing]; omega
  rcases units with _ | ⟨_ | _, rest⟩ <;> simp [join?, hleading, htrailing]

theorem hexNumber?_control {n : Nat} (h : n < 0x20) :
    hexNumber? ['0', '0', Json.hexDigit (n / 16), Json.hexDigit (n % 16)] = some n := by
  revert n
  decide

/-- Behind a backslash, a letter that is not `u` is a short escape. -/
theorem ofChars?_short {c meant : Char} (hc : c ≠ 'u') (h : shortEscape? c = some meant)
    (rest : List Char) :
    ofChars? ('\\' :: c :: rest) = (ofChars? rest).map (.char meant :: ·) := by
  rw [ofChars?, h]
  · cases ofChars? rest <;> rfl
  · rintro a b d e more rfl
    exact absurd rfl hc

theorem ofChars?_plain {c : Char} (hc : c ≠ '\\') (hcontrol : ¬c.toNat < 0x20) (rest : List Char) :
    ofChars? (c :: rest) = (ofChars? rest).map (.char c :: ·) := by
  rw [ofChars?]
  · simp [hc, hcontrol]
  · rintro a b d e more rfl
    exact absurd rfl hc
  · rintro d more rfl
    exact absurd rfl hc

/-- **A character is read as one unit**, which stands for it. -/
theorem exists_unit_escape (c : Char) : ∃ unit : StringUnit,
    (∀ rest, ofChars? (Json.escape c ++ rest) = (ofChars? rest).map (unit :: ·)) ∧
      ∀ units, join? (unit :: units) = (join? units).map (c :: ·) := by
  obtain ⟨short, heq, hletter, hmeant⟩ | ⟨hcontrol, heq⟩ | ⟨hplain, heq⟩ := Json.escape_cases c
  · rw [heq]
    exact ⟨.char c, ofChars?_short hletter hmeant, fun _ => rfl⟩
  · -- A control character is written as its number
    refine ⟨.unit c.toNat, fun rest => ?_, fun units => ?_⟩
    · simp only [heq, List.cons_append, List.nil_append]
      rw [ofChars?, hexNumber?_control hcontrol]
      cases ofChars? rest <;> rfl
    · rw [join?_unit_cons (by omega), Char.ofNat_toNat]
  · rw [heq]
    exact ⟨.char c, ofChars?_plain hplain.2.1 hplain.2.2, fun _ => rfl⟩

theorem exists_units_escape (cs : List Char) :
    ∃ units, ofChars? (cs.flatMap Json.escape) = some units ∧ join? units = some cs := by
  induction cs with
  | nil => exact ⟨[], rfl, rfl⟩
  | cons c rest ih =>
    obtain ⟨units, hunits, hjoin⟩ := ih
    obtain ⟨unit, hread, hstands⟩ := exists_unit_escape c
    exact ⟨unit :: units, by rw [List.flatMap_cons, hread, hunits]; rfl,
      by rw [hstands, hjoin]; rfl⟩

end StringUnit

theorem closingQuote_plain {c : Char} (hquote : c ≠ '"') (hbackslash : c ≠ '\\')
    (rest : List Char) : closingQuote (c :: rest) = (closingQuote rest).map (· + 1) := by
  rw [closingQuote]
  · exact fun heq => hquote heq
  · exact fun heq => absurd heq hbackslash
  · exact fun d more heq => absurd heq hbackslash

theorem hexDigit_ne {n : Nat} (h : n < 16) : Json.hexDigit n ≠ '"' ∧ Json.hexDigit n ≠ '\\' := by
  revert n
  decide

/-- No character of a string closes it. -/
theorem closingQuote_escape (c : Char) (rest : List Char) :
    closingQuote (Json.escape c ++ rest) =
      (closingQuote rest).map (· + (Json.escape c).length) := by
  obtain ⟨short, heq, -⟩ | ⟨hcontrol, heq⟩ | ⟨⟨hquote, hbackslash, -⟩, heq⟩ := Json.escape_cases c
  · rw [heq]
    rfl
  · -- The digits of the number of a control character stand for themselves
    obtain ⟨hhigh, hhigh'⟩ := hexDigit_ne (n := c.toNat / 16) (by omega)
    obtain ⟨hlow, hlow'⟩ := hexDigit_ne (n := c.toNat % 16) (by omega)
    have hzero : ('0' : Char) ≠ '"' ∧ '0' ≠ '\\' := by decide
    simp only [heq, List.cons_append, List.nil_append]
    rw [closingQuote, closingQuote_plain hzero.1 hzero.2, closingQuote_plain hzero.1 hzero.2,
      closingQuote_plain hhigh hhigh', closingQuote_plain hlow hlow']
    cases closingQuote rest <;> rfl
  · rw [heq]
    exact closingQuote_plain hquote hbackslash rest

theorem closingQuote_escaped (cs rest : List Char) :
    closingQuote (cs.flatMap Json.escape ++ '"' :: rest) =
      some ((cs.flatMap Json.escape).length + 1) := by
  induction cs with
  | nil => rfl
  | cons c more ih =>
    rw [List.flatMap_cons, List.append_assoc, closingQuote_escape, ih]
    simp only [Option.map_some, List.length_append]
    congr 1
    omega

/-- **A string is read back as it was**, whatever stands behind it. -/
theorem JsonMark.read?_quote (s : String) (rest : List Char) :
    JsonMark.read? '"' (s.toList.flatMap Json.escape ++ '"' :: rest) =
      some (.string (some s), (s.toList.flatMap Json.escape ++ ['"']).length) := by
  obtain ⟨units, hunits, hjoin⟩ := StringUnit.exists_units_escape s.toList
  have hinner : (s.toList.flatMap Json.escape ++ '"' :: rest).take
      ((s.toList.flatMap Json.escape).length + 1 - 1) = s.toList.flatMap Json.escape := by
    simp
  rw [read?, if_neg (by decide), if_pos rfl, closingQuote_escaped]
  simp only [Option.bind_eq_bind, Option.bind_some, hinner, hunits, hjoin]
  simp

/-! ## §2 Words and punctuation -/

/-- A run of characters ends where another kind of character stands. -/
theorem takeWhile_append_stop {p : Char → Bool} {front rest : List Char} (h : front.all p = true)
    (hrest : rest.head?.all (fun c => !p c) = true) :
    (front ++ rest).takeWhile p = front ∧ (front ++ rest).dropWhile p = rest := by
  rw [List.takeWhile_append_of_pos (List.all_eq_true.1 h),
    List.dropWhile_append_of_pos (List.all_eq_true.1 h)]
  cases rest with
  | nil => simp
  | cons c more =>
    have hc : p c = false := by simpa using hrest
    simp [hc]

namespace JsonMark

/-- Punctuation is of no other kind of character. -/
theorem isPunctuation_excludes {c : Char} (h : isPunctuation c = true) :
    isBlank c = false ∧ isNumberChar c = false ∧ c.isAlpha = false ∧ c ≠ '"' := by
  simp only [isPunctuation, Bool.or_eq_true, decide_eq_true_eq] at h
  rcases h with ((((rfl | rfl) | rfl) | rfl) | rfl) | rfl <;> simp [isBlank, isNumberChar]

/-- A word is read as one mark, up to what is no letter. -/
theorem read?_word {c : Char} {more rest : List Char} {draft : Draft}
    (hc : c = 'n' ∨ c = 't' ∨ c = 'f') (hmore : more.all Char.isAlpha = true)
    (hword : wordDraft? (c :: more) = some draft)
    (hrest : rest.head?.all (fun d => !d.isAlpha) = true) :
    read? c (more ++ rest) = some (.atom draft, more.length) := by
  have hmark : isPunctuation c = false ∧ c ≠ '"' ∧ ¬(c = '-' || c.isDigit) = true := by
    rcases hc with rfl | rfl | rfl <;> simp [isPunctuation]
  rw [read?, if_neg (by simp [hmark.1]), if_neg hmark.2.1, if_neg hmark.2.2,
    (takeWhile_append_stop hmore hrest).1]
  dsimp only
  rw [hword]
  rfl

end JsonMark

end QueryWeave
