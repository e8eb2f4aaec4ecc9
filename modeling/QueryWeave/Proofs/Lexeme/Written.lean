import QueryWeave.Proofs.Lexeme.Spelling

/-!
# Rows Written Into a Text

Rows that are read back wherever they are written, as long as what follows them separates. They are
put together from smaller ones, with separating characters or closing brackets at the seams.

- `ReadBack`: rows that are read back.
- `Written`: texts that are read as a row.
-/

namespace QueryWeave

/-! ## §1 Rows that are read back -/

/-- Whether a row is read back in front of every text that nothing runs into. What may follow is a
character that separates: a mark, a blank, a quote, or the end. -/
def ReadBack (row : List Lexeme) : Prop :=
  ∀ following : List Char, following.head?.all Lexeme.separates = true →
    Lexeme.Spells row following

theorem readBack_nil : ReadBack [] := fun _ _ => trivial

/-- A row that is spelled in front of one text is read back in front of all that separate, if its
lexemes are whole: nothing but its last lexeme ever looks at what follows. -/
theorem readBack_of_spells {row : List Lexeme} {following : List Char}
    (h : Lexeme.Spells row following) (hwhole : ∀ l ∈ row, l.Whole) : ReadBack row :=
  fun _ hfollowing => h.before_of_whole hwhole hfollowing

theorem readBack_singleton {l : Lexeme} (hgap : IsGap l.gap) (hwhole : l.Whole) : ReadBack [l] := by
  have hcuts : l.Cuts [] := hwhole.cuts (Lexeme.clearOf_nil l)
  exact @readBack_of_spells [l] [] ⟨hgap, hcuts, trivial⟩ (by simpa using hwhole)

/-- Rows that are read back are read back one behind the other, if nothing runs over the seam. -/
theorem ReadBack.append {first second : List Lexeme} (hfirst : ReadBack first)
    (hsecond : ReadBack second)
    (hseam : (Lexeme.charsOf second).head?.all Lexeme.separates = true) :
    ReadBack (first ++ second) := by
  intro following hfollowing
  apply Lexeme.spells_append.2
  refine ⟨hfirst _ ?_, hsecond following hfollowing⟩
  -- Behind the first row stands the second, or what follows if the second is empty
  cases hchars : Lexeme.charsOf second with
  | nil => exact hfollowing
  | cons c rest =>
    rw [hchars] at hseam
    simpa using hseam

/-- A mark is read back whatever follows it, unless it could begin an ellipsis or a variable. -/
theorem ReadBack.mark {l : Lexeme} {mark : Char} (hkind : l.kind = .punctuator mark)
    (hmark : mark ≠ '.' ∧ mark ≠ '$') (hgap : IsGap l.gap) (hwhole : l.Whole) {row : List Lexeme}
    (h : ReadBack row) : ReadBack (l :: row) := by
  intro following hfollowing
  refine ⟨hgap, hwhole.cuts ?_, h following hfollowing⟩
  simp [Lexeme.clearOf, hkind, hmark]

/-- A mark by itself. -/
theorem whole_mark {gap : List Char} {mark : Char}
    (h : beginsLexeme mark = true ∧ mark ≠ '"' ∧ isNameStart mark = false ∧
      isNumberStart mark = false) : (⟨gap, .punctuator mark, [mark]⟩ : Lexeme).Whole :=
  ⟨mark, [], rfl, rfl, rfl, h⟩

theorem separates_gap_append {gap behind : List Char} (hgap : IsGap gap)
    (hbehind : behind.head?.all Lexeme.separates = true) :
    (gap ++ behind).head?.all Lexeme.separates = true := by
  have hhead := Lexeme.separates_of_gapState hgap.isSome
  cases gap with
  | nil => exact hbehind
  | cons c rest => exact hhead

/-- Behind a mark that separates, anything may stand. So a row with its closing bracket needs no
condition on what follows, and this is what signatures and selection sets are put together with. -/
theorem ReadBack.closed {row : List Lexeme} (h : ReadBack row) {gap : List Char} (hgap : IsGap gap)
    {mark : Char} (hmark : mark ≠ '.' ∧ mark ≠ '$' ∧ Lexeme.separates mark = true)
    (hwhole : (⟨gap, .punctuator mark, [mark]⟩ : Lexeme).Whole) (behind : List Char) :
    Lexeme.Spells (row ++ [⟨gap, .punctuator mark, [mark]⟩]) behind := by
  apply Lexeme.spells_append.2
  refine ⟨h _ ?_, hgap, hwhole.cuts ?_, trivial⟩
  · simp only [Lexeme.charsOf_cons, Lexeme.charsOf_nil, List.append_nil, List.append_assoc]
    exact separates_gap_append hgap hmark.2.2
  · simp [Lexeme.clearOf, hmark.1, hmark.2.1]

/-! ## §2 Gaps in front -/

/-- A row with another gap in front. -/
def Lexeme.regap (gap : List Char) : List Lexeme → List Lexeme
  | [] => []
  | l :: rest => { l with gap } :: rest

@[simp] theorem spanText_regap (gap : List Char) (row : List Lexeme) :
    Lexeme.spanText (Lexeme.regap gap row) = Lexeme.spanText row := by
  cases row <;> rfl

theorem charsOf_regap {row : List Lexeme} (h : row ≠ []) (gap : List Char) :
    Lexeme.charsOf (Lexeme.regap gap row) = gap ++ Lexeme.spanText row := by
  cases row with
  | nil => exact absurd rfl h
  | cons l rest => simp [Lexeme.regap, Lexeme.spanText]

theorem ReadBack.regap {row : List Lexeme} (h : ReadBack row) {gap : List Char} (hgap : IsGap gap) :
    ReadBack (Lexeme.regap gap row) := by
  intro following hfollowing
  have hrow := h following hfollowing
  cases row with
  | nil => trivial
  | cons l rest => exact ⟨hgap, hrow.2.1, hrow.2.2⟩

/-! ## §3 Texts of rows -/

/-- Whether a text is what a row says, from its first lexeme through its last. The first gap is left
out: it belongs to the place where the text is put. -/
structure Written (row : List Lexeme) (text : String) : Prop where
  text : text.toList = Lexeme.spanText row
  readBack : ReadBack row

end QueryWeave
