import Mathlib.Tactic.ByContra
import Mathlib.Tactic.SplitIfs
import QueryWeave.Lexeme.Scanner

/-!
# Gaps

What may stand between lexemes, apart from how the scanner measures it. Reading ignored
characters has two states, inside a comment and outside of one. A *gap* is read from outside to
outside; only behind the last lexeme may a comment be left open.

- `gapLength_append`: a gap is measured as a whole, whatever follows it.
- `gapState_take_gapLength`: what is measured is ignored.
-/

namespace QueryWeave

/-! ## §1 Reading ignored characters -/

/-- Whether a text of ignored characters ends inside a comment, if it is one.

The reader has the two states that `gapLength` has, but it says what it ends in, and fails where
`gapLength` stops. So texts of ignored characters can be put together without measuring them. -/
def gapState (inComment : Bool) : List Char → Option Bool
  | [] => some inComment
  | c :: rest =>
    if inComment && !isLineBreak c then gapState true rest
    else if c = '#' then gapState true rest
    else if isIgnored c then gapState false rest
    else none

/-- A text that may stand in front of a lexeme. A comment left open would swallow the lexeme, and so
it must be closed. -/
def IsGap (gap : List Char) : Prop :=
  gapState false gap = some false

/-- Characters that lexemes begin with. -/
def beginsLexeme (c : Char) : Bool :=
  !(c = '#') && !isIgnored c

theorem isIgnored_of_isBlank {c : Char} (h : Text.isBlank c = true) : isIgnored c = true := by
  simp [isIgnored, h]

/-- Line breaks are ignored, and no comment begins with one. -/
theorem isIgnored_of_isLineBreak {c : Char} (h : isLineBreak c = true) :
    isIgnored c = true ∧ c ≠ '#' := by
  simp only [isLineBreak, Bool.or_eq_true, decide_eq_true_eq] at h
  rcases h with rfl | rfl <;> decide

theorem isBlank_hash : Text.isBlank '#' = false := by
  decide

@[simp] theorem isGap_nil : IsGap [] := rfl

/-- A blank in front of a gap leaves a gap. -/
theorem gapState_cons_of_isIgnored {c : Char} (h : isIgnored c = true) (hhash : c ≠ '#')
    (rest : List Char) : gapState false (c :: rest) = gapState false rest := by
  simp [gapState, h, hhash]

theorem gapState_append (inComment : Bool) (first second : List Char) :
    gapState inComment (first ++ second) =
      (gapState inComment first).bind fun state => gapState state second := by
  -- On the first text, from either state: each character decides the state for the next
  induction first generalizing inComment with
  | nil => rfl
  | cons c rest ih =>
    simp only [List.cons_append, gapState]
    split_ifs
    · exact ih true
    · exact ih true
    · exact ih false
    · rfl

theorem IsGap.append {first second : List Char} (hfirst : IsGap first) (hsecond : IsGap second) :
    IsGap (first ++ second) := by
  unfold IsGap at hfirst hsecond ⊢
  rw [gapState_append, hfirst]
  exact hsecond

/-- Ignored text begins with an ignored character or with a comment. -/
theorem not_beginsLexeme_of_gapState {c : Char} {rest : List Char}
    (h : (gapState false (c :: rest)).isSome) : beginsLexeme c = false := by
  unfold gapState at h
  by_cases hhash : c = '#'
  · simp [beginsLexeme, hhash]
  · by_cases hignored : isIgnored c = true
    · simp [beginsLexeme, hignored]
    · simp [hhash, hignored] at h

theorem isGap_of_blank {blanks : List Char} (h : ∀ c ∈ blanks, Text.isBlank c = true) :
    IsGap blanks := by
  induction blanks with
  | nil => rfl
  | cons c rest ih =>
    have hc := h c List.mem_cons_self
    have hhash : c ≠ '#' := fun heq => by simp [heq, isBlank_hash] at hc
    unfold IsGap
    rw [gapState_cons_of_isIgnored (isIgnored_of_isBlank hc) hhash]
    exact ih fun d hd => h d (List.mem_cons_of_mem _ hd)

theorem IsGap.isSome {gap : List Char} (h : IsGap gap) : (gapState false gap).isSome := by
  rw [h]
  rfl

/-- A line feed behind ignored text ends a comment, if one is open. -/
theorem isGap_line {gap : List Char} (h : (gapState false gap).isSome) : IsGap (gap ++ ['\n']) := by
  obtain ⟨state, hstate⟩ := Option.isSome_iff_exists.1 h
  unfold IsGap
  rw [gapState_append, hstate]
  -- A line feed leads outside from both states
  cases state <;> rfl

/-! ## §2 Measuring -/

private theorem gapLength_lexeme {c : Char} (h : beginsLexeme c = true) (rest : List Char) :
    gapLength false (c :: rest) = 0 := by
  simp only [beginsLexeme, Bool.and_eq_true, Bool.not_eq_true', decide_eq_false_iff_not] at h
  simp [gapLength, h.1, h.2]

/-- Ignored characters are measured first, and then what follows them. -/
theorem gapLength_append {inComment state : Bool} {gap : List Char}
    (h : gapState inComment gap = some state) (rest : List Char) :
    gapLength inComment (gap ++ rest) = gap.length + gapLength state rest := by
  -- On the ignored characters: each is counted once, in the three ways in which one can be ignored
  induction gap generalizing inComment with
  | nil =>
    cases h
    simp
  | cons c more ih =>
    simp only [gapState] at h
    simp only [List.cons_append, gapLength, List.length_cons]
    split_ifs at h ⊢
    · rw [ih h]; omega
    · rw [ih h]; omega
    · rw [ih h]; omega

/-- In front of a lexeme a gap is measured exactly. -/
theorem IsGap.gapLength_append_cons {gap : List Char} (hgap : IsGap gap) {c : Char}
    (hc : beginsLexeme c = true) (rest : List Char) :
    gapLength false (gap ++ c :: rest) = gap.length := by
  rw [gapLength_append hgap, gapLength_lexeme hc, Nat.add_zero]

/-- A text of ignored characters is measured through its end. -/
theorem gapLength_of_gapState {inComment : Bool} {gap : List Char}
    (h : (gapState inComment gap).isSome) : gapLength inComment gap = gap.length := by
  obtain ⟨state, hstate⟩ := Option.isSome_iff_exists.1 h
  have hlength := gapLength_append hstate []
  simpa [gapLength] using hlength

/-- What is measured is ignored: all of the text, or a gap in front of a lexeme.

The two cases are those of `scan`, which ends in the one and goes on with a lexeme in the other. -/
theorem gapState_take_gapLength (inComment : Bool) (cs : List Char) :
    match cs.drop (gapLength inComment cs) with
    | [] => (gapState inComment cs).isSome
    | c :: _ => gapState inComment (cs.take (gapLength inComment cs)) = some false ∧
        beginsLexeme c = true := by
  -- On the text, along the measure, which looks at one character after the other
  induction cs generalizing inComment with
  | nil => simp [gapLength, gapState]
  | cons c rest ih =>
    simp only [gapLength, gapState]
    split_ifs with hcomment hhash hignored
    · simpa [gapState, hcomment] using ih true
    · simpa [gapState, hcomment, hhash] using ih true
    · simpa [gapState, hcomment, hhash, hignored] using ih false
    · -- The measure ends here; inside a comment only a line break ends it, and that is ignored
      have houtside : inComment = false := by
        by_contra hin
        have hbreak : isLineBreak c = true := by
          simp only [Bool.not_eq_false] at hin
          simpa [hin] using hcomment
        exact hignored (isIgnored_of_isLineBreak hbreak).1
      simp [gapState, houtside, beginsLexeme, hhash, hignored]

end QueryWeave
