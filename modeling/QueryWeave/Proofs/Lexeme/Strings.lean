import Mathlib.Tactic.SplitIfs
import QueryWeave.Lexeme.Scanner

/-!
# Where Strings End

A string is read through its closing quotes, or to the end of the text when there are none. So a
string that ends although more text follows is closed, and what follows it has no part in where it
ends. The one exception are two quotes by themselves, which a third quote makes the opening of a
block string.

- `blockLength_append`, `quotedLength_append`: the two forms.
- `stringLength_append`: strings of either form.
-/

namespace QueryWeave

/-! ## §1 Reading from the front -/

/-- A text with what was taken from its front. -/
theorem eq_append_drop {n : Nat} {front cs : List Char} (h : cs.take n = front) :
    cs = front ++ cs.drop n := by
  rw [← h, List.take_append_drop]

/-- A block string read from its front, by cases on the characters there: an escaped delimiter is
passed as a whole, a delimiter ends the string, and any other character is passed by itself. -/
theorem blockLength_cons (c : Char) (cs : List Char) : blockLength (c :: cs) =
    if c = '\\' ∧ cs.take 3 = ['"', '"', '"'] then blockLength (cs.drop 3) + 4
    else if c = '"' ∧ cs.take 2 = ['"', '"'] then 3
    else blockLength cs + 1 := by
  -- The function looks four characters ahead at once, and so its cases are told apart one by one
  rw [blockLength.eq_def]
  split
  · rename_i rest heq
    cases heq
    simp
  · rename_i rest heq
    cases heq
    simp
  · -- Neither an escaped closing nor a closing stands in front
    rename_i d rest hescaped hclosing heq
    cases heq
    have h1 : ¬(c = '\\' ∧ cs.take 3 = ['"', '"', '"']) := by
      rintro ⟨rfl, htake⟩
      exact hescaped _ rfl (eq_append_drop htake)
    have h2 : ¬(c = '"' ∧ cs.take 2 = ['"', '"']) := by
      rintro ⟨rfl, htake⟩
      exact hclosing _ rfl (eq_append_drop htake)
    rw [if_neg h1, if_neg h2]
  · rename_i heq
    cases heq

theorem quotedLength_cons (c : Char) (cs : List Char) : quotedLength (c :: cs) =
    if c = '\\' then (if cs = [] then 1 else quotedLength (cs.drop 1) + 2)
    else if c = '"' || c = '\n' then 1
    else quotedLength cs + 1 := by
  by_cases hescape : c = '\\'
  · subst hescape
    cases cs <;> simp [quotedLength]
  · rw [if_neg hescape]
    -- What is no backslash is a quote, a line feed, or anything else
    rw [quotedLength.eq_def]
    split
    · rename_i heq; cases heq
    · rename_i heq; cases heq; simp at hescape
    · rename_i heq; cases heq; simp at hescape
    · rename_i heq; cases heq; rfl

theorem blockLength_le_length (cs : List Char) : blockLength cs ≤ cs.length := by
  fun_induction blockLength cs <;> simp only [List.length_cons, List.length_nil] at * <;> omega

theorem quotedLength_le_length (cs : List Char) : quotedLength cs ≤ cs.length := by
  fun_induction quotedLength cs <;> simp only [List.length_cons, List.length_nil] at * <;> omega

/-! ## §2 What follows a string -/

private theorem blockLength_pos {cs : List Char} (h : cs ≠ []) : 0 < blockLength cs := by
  cases cs with
  | nil => exact absurd rfl h
  | cons c rest =>
    rw [blockLength_cons]
    split_ifs <;> omega

private theorem quotedLength_pos {cs : List Char} (h : cs ≠ []) : 0 < quotedLength cs := by
  cases cs with
  | nil => exact absurd rfl h
  | cons c rest =>
    rw [quotedLength_cons]
    split_ifs <;> omega

/-- A block string that ends although more follows has its closing quotes, and ends there whatever
follows.

That it has at least three characters carries the induction: the reader looks that far ahead, and
must not look beyond the text. -/
theorem blockLength_append {text following : List Char} (hmore : following ≠ [])
    (h : blockLength (text ++ following) = text.length) :
    3 ≤ text.length ∧ ∀ other, blockLength (text ++ other) = text.length := by
  match text with
  | [] => exact absurd h (Nat.ne_of_gt (blockLength_pos hmore))
  | c :: rest =>
    simp only [List.cons_append, blockLength_cons, List.length_cons] at h ⊢
    split_ifs at h with hescaped hclosing
    · -- An escaped closing: all four characters belong to the text
      have hlong : 3 ≤ rest.length := by omega
      have hdrop : ∀ other, (rest ++ other).drop 3 = rest.drop 3 ++ other := fun other =>
        List.drop_append_of_le_length hlong
      rw [List.take_append_of_le_length hlong] at hescaped
      have hrest : blockLength (rest.drop 3 ++ following) = (rest.drop 3).length := by
        rw [← hdrop, List.length_drop]
        omega
      have ih := blockLength_append hmore hrest
      refine ⟨by omega, fun other => ?_⟩
      rw [List.take_append_of_le_length hlong, if_pos hescaped, hdrop, ih.2, List.length_drop]
      omega
    · -- The closing quotes: all three belong to the text, and it ends there
      have hlong : 2 ≤ rest.length := by omega
      rw [List.take_append_of_le_length hlong] at hclosing
      refine ⟨by omega, fun other => ?_⟩
      have hnot : ¬(c = '\\' ∧ (rest ++ other).take 3 = ['"', '"', '"']) := by
        rintro ⟨rfl, -⟩
        exact absurd hclosing.1 (by decide)
      rw [List.take_append_of_le_length hlong, if_neg hnot, if_pos hclosing]
      omega
    · -- The front of the rest is long enough to decide the same cases again
      have ih := @blockLength_append rest following hmore (by omega)
      have hthree := ih.1
      refine ⟨by omega, fun other => ?_⟩
      rw [List.take_append_of_le_length (by omega)] at hescaped hclosing
      rw [List.take_append_of_le_length (by omega), List.take_append_of_le_length (by omega),
        if_neg hescaped, if_neg hclosing, ih.2]
termination_by text.length

/-- A string that ends although more follows ends there whatever follows. One character is looked
ahead at most, behind a backslash. -/
theorem quotedLength_append {text following : List Char} (hmore : following ≠ [])
    (h : quotedLength (text ++ following) = text.length) (other : List Char) :
    quotedLength (text ++ other) = text.length := by
  match text with
  | [] => exact absurd h (Nat.ne_of_gt (quotedLength_pos hmore))
  | c :: rest =>
    simp only [List.cons_append, quotedLength_cons, List.length_cons] at h ⊢
    split_ifs at h with hescape hend hquote
    · -- A backslash cannot be the last character, because more follows
      exact absurd (List.append_eq_nil_iff.1 hend).2 hmore
    · -- The escaped character belongs to the text, since the text is not over before it
      have hlong : 1 ≤ rest.length := by omega
      have hdrop : ∀ other, (rest ++ other).drop 1 = rest.drop 1 ++ other := fun other =>
        List.drop_append_of_le_length hlong
      have hrest : quotedLength (rest.drop 1 ++ following) = (rest.drop 1).length := by
        rw [← hdrop, List.length_drop]
        omega
      have ih := quotedLength_append hmore hrest other
      have hnil : rest ++ other ≠ [] := by
        intro hnil
        rw [(List.append_eq_nil_iff.1 hnil).1] at hlong
        simp at hlong
      rw [if_pos hescape, if_neg hnil, hdrop, ih, List.length_drop]
      omega
    · -- The string ends with this character
      rw [if_neg hescape, if_pos hquote]
      omega
    · have ih := @quotedLength_append rest following hmore (by omega) other
      rw [if_neg hescape, if_neg hquote, ih]
termination_by text.length

theorem stringLength_eq (cs : List Char) : stringLength cs =
    if cs.take 2 = ['"', '"'] then blockLength (cs.drop 2) + 2 else quotedLength cs := by
  unfold stringLength
  split
  · simp
  · rename_i hopening
    -- Two quotes more would have been the opening of a block string
    have hnot : ¬cs.take 2 = ['"', '"'] := by
      intro htake
      exact hopening _ (eq_append_drop htake)
    rw [if_neg hnot]

theorem stringLength_le_length (cs : List Char) : stringLength cs ≤ cs.length := by
  rw [stringLength_eq]
  split_ifs with hopening
  · have hlength := congrArg List.length hopening
    have hblock := blockLength_le_length (cs.drop 2)
    simp only [List.length_take, List.length_cons, List.length_nil] at hlength
    rw [List.length_drop] at hblock
    omega
  · exact quotedLength_le_length cs

/-- A string that ends although more follows is closed, and ends there whatever follows; only two
quotes by themselves must not be followed by a third one. -/
theorem stringLength_append {text following other : List Char} (hmore : following ≠ [])
    (h : stringLength (text ++ following) = text.length)
    (hother : text = ['"'] → other.head? ≠ some '"') :
    stringLength (text ++ other) = text.length := by
  rw [stringLength_eq] at h ⊢
  by_cases hlong : 2 ≤ text.length
  · -- The form of the string is decided inside the text
    rw [List.take_append_of_le_length hlong] at h ⊢
    split_ifs at h ⊢ with hblock
    · rw [List.drop_append_of_le_length hlong] at h ⊢
      have hrest : blockLength (text.drop 2 ++ following) = (text.drop 2).length := by
        rw [List.length_drop]
        omega
      rw [(blockLength_append hmore hrest).2, List.length_drop]
      omega
    · exact quotedLength_append hmore h other
  · -- A text this short is no block string, and must not become one
    have hquoted : quotedLength (text ++ following) = text.length := by
      split_ifs at h
      · omega
      · exact h
    have hform : ¬(text ++ other).take 2 = ['"', '"'] := by
      match text, hlong with
      | [], _ => exact absurd hquoted (Nat.ne_of_gt (quotedLength_pos hmore))
      | [c], _ =>
        cases other with
        | nil => simp
        | cons d more =>
          intro htake
          simp only [List.cons_append, List.nil_append, List.take_succ_cons, List.take_zero,
            List.cons.injEq, and_true] at htake
          exact hother (by rw [htake.1]) (by rw [htake.2]; rfl)
      | _ :: _ :: _, hlong => simp at hlong
    rw [if_neg hform]
    exact quotedLength_append hmore hquoted other

end QueryWeave
