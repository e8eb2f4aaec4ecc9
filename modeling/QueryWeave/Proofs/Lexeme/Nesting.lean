import QueryWeave.Proofs.Lexeme.Balance

/-!
# Nested Rows

A row nests if every bracket that it opens is closed by one that may close it, with a row that nests
in between. Which bracket may close which is left open: by kind, a brace is closed by a brace only;
counted together, any bracket closes any. A row nests in the latter sense exactly if it is
balanced. So it nests by kind exactly if it is balanced, and of every two brackets with a balanced
row in between the second is of the kind of the first.

- `Nested`: rows that nest.
- `nested_iff_openBehind`: a row nests if it leaves no bracket open, read from left to right.
- `nested_iff_balanced`: rows that nest, against rows that are balanced.
-/

namespace QueryWeave

/-! ## §1 Rows that nest -/

/-- Whether two brackets are of one kind, the first of them an opening and the second a closing
one. -/
def Lexeme.mates (opener closer : Lexeme) : Bool :=
  opener.isMark '{' && closer.isMark '}' || opener.isMark '(' && closer.isMark ')' ||
    opener.isMark '[' && closer.isMark ']'

/-- Rows in which every bracket that is opened is closed by one that `mates` with it, around a row
of this sort. With `Lexeme.mates` this is nesting by kind; with a relation that always holds, it is
what counting brackets can see. -/
inductive Nested (mates : Lexeme → Lexeme → Bool) : List Lexeme → Prop
  | nil : Nested mates []
  | plain {l : Lexeme} {rest : List Lexeme} (hopens : l.opens = false) (hcloses : l.closes = false)
      (hrest : Nested mates rest) : Nested mates (l :: rest)
  | enclosed {opener closer : Lexeme} {inner rest : List Lexeme} (hopens : opener.opens = true)
      (hcloses : closer.closes = true) (hmates : mates opener closer = true)
      (hinner : Nested mates inner) (hrest : Nested mates rest) :
      Nested mates (opener :: (inner ++ closer :: rest))

/-- Whether one bracket is opened by a row and another closed behind it, with a balanced row in
between. -/
def Paired (row : List Lexeme) (opener closer : Lexeme) : Prop :=
  ∃ before inner after, row = before ++ opener :: (inner ++ closer :: after) ∧ Balanced inner ∧
    opener.opens = true ∧ closer.closes = true

theorem Lexeme.opens_of_mates {opener closer : Lexeme} (h : opener.mates closer = true) :
    opener.opens = true ∧ closer.closes = true := by
  simp only [mates, Bool.or_eq_true, Bool.and_eq_true] at h
  rcases h with (⟨hopener, hcloser⟩ | ⟨hopener, hcloser⟩) | ⟨hopener, hcloser⟩ <;>
    simp [opens, closes, hopener, hcloser]

variable {mates : Lexeme → Lexeme → Bool}

theorem Nested.append {first second : List Lexeme} (hfirst : Nested mates first)
    (hsecond : Nested mates second) : Nested mates (first ++ second) := by
  induction hfirst with
  | nil => exact hsecond
  | plain hopens hcloses _ ih => exact .plain hopens hcloses ih
  | enclosed hopens hcloses hmates hinner _ _ ih =>
    rw [List.cons_append, List.append_assoc]
    exact .enclosed hopens hcloses hmates hinner ih

theorem Nested.enclose {opener closer : Lexeme} {row : List Lexeme} (h : Nested Lexeme.mates row)
    (hmates : opener.mates closer = true) : Nested Lexeme.mates (opener :: row ++ [closer]) := by
  obtain ⟨hopens, hcloses⟩ := Lexeme.opens_of_mates hmates
  exact .enclosed hopens hcloses hmates h .nil

theorem nested_singleton {l : Lexeme} (hopens : l.opens = false) (hcloses : l.closes = false) :
    Nested mates [l] :=
  .plain hopens hcloses .nil

theorem Nested.balanced {row : List Lexeme} (h : Nested mates row) : Balanced row := by
  induction h with
  | nil => rfl
  | plain hopens hcloses _ ih => exact ih.cons hopens hcloses
  | enclosed hopens hcloses _ _ _ ihInner ihRest =>
    have hboth := (ihInner.enclose hopens hcloses).append ihRest
    simpa using hboth

/-! ## §2 Reading from left to right

`openBehind` reads a row from left to right, with the open brackets on a stack. It succeeds with an
empty stack exactly on the rows that nest. -/

/-- The brackets that are open behind a row, the innermost first, `pending` being open in front of
it. There are none if the row closes a bracket by one that does not mate. This is the usual stack of
a bracket checker, and what makes `Nested` decidable. -/
def openBehind (mates : Lexeme → Lexeme → Bool) (pending : List Lexeme) :
    List Lexeme → Option (List Lexeme)
  | [] => some pending
  | l :: rest =>
    if l.opens then openBehind mates (l :: pending) rest
    else if l.closes then
      match pending with
      | [] => none
      | opener :: outer => if mates opener l then openBehind mates outer rest else none
    else openBehind mates pending rest

theorem openBehind_append (pending first second : List Lexeme) :
    openBehind mates pending (first ++ second) =
      (openBehind mates pending first).bind fun behind => openBehind mates behind second := by
  induction first generalizing pending with
  | nil => rfl
  | cons l rest ih =>
    simp only [List.cons_append, openBehind]
    -- An opening bracket is pushed, a closing one pops, and nothing else touches the stack
    split_ifs
    · exact ih _
    · cases pending with
      | nil => rfl
      | cons opener outer =>
        dsimp only
        split_ifs
        · exact ih outer
        · rfl
    · exact ih _

theorem openBehind_opener {opener : Lexeme} (h : opener.opens = true) (pending rest : List Lexeme) :
    openBehind mates pending (opener :: rest) = openBehind mates (opener :: pending) rest := by
  simp [openBehind, h]

theorem openBehind_closer {closer : Lexeme} (h : closer.closes = true) (opener : Lexeme)
    (pending rest : List Lexeme) :
    openBehind mates (opener :: pending) (closer :: rest) =
      if mates opener closer then openBehind mates pending rest else none := by
  simp [openBehind, not_opens_of_closes h, h]

theorem openBehind_plain {l : Lexeme} (hopens : l.opens = false) (hcloses : l.closes = false)
    (pending rest : List Lexeme) :
    openBehind mates pending (l :: rest) = openBehind mates pending rest := by
  simp [openBehind, hopens, hcloses]

/-- A row that nests leaves open what was open in front of it. -/
theorem Nested.openBehind {row : List Lexeme} (h : Nested mates row) (pending : List Lexeme) :
    openBehind mates pending row = some pending := by
  induction h generalizing pending with
  | nil => rfl
  | plain hopens hcloses _ ih =>
    rw [openBehind_plain hopens hcloses]
    exact ih pending
  | enclosed hopens hcloses hmates _ _ ihInner ihRest =>
    -- Pushed in front of the inner row, and popped behind it, with the stack as it was in between
    rw [openBehind_opener hopens, openBehind_append, ihInner, Option.bind_some,
      openBehind_closer hcloses, if_pos hmates]
    exact ihRest pending

/-- Rows that close the brackets in `pending`, one after the other, and nest otherwise. They are
what stands behind a cut through a row that nests. -/
inductive Settles (mates : Lexeme → Lexeme → Bool) : List Lexeme → List Lexeme → Prop
  | nested {row : List Lexeme} (h : Nested mates row) : Settles mates [] row
  | closes {opener closer : Lexeme} {outer inner rest : List Lexeme}
      (hcloses : closer.closes = true) (hmates : mates opener closer = true)
      (hinner : Nested mates inner) (hrest : Settles mates outer rest) :
      Settles mates (opener :: outer) (inner ++ closer :: rest)

theorem Settles.behind {pending front row : List Lexeme} (h : Settles mates pending row)
    (hfront : Nested mates front) : Settles mates pending (front ++ row) := by
  cases h with
  | nested h => exact .nested (hfront.append h)
  | closes hcloses hmates hinner hrest =>
    rw [← List.append_assoc]
    exact .closes hcloses hmates (hfront.append hinner) hrest

/-- A row that leaves no bracket open closes those that are pending. The induction keeps what is
pending apart from the brackets that the row opens itself. -/
theorem settles_of_openBehind {pending row : List Lexeme}
    (h : openBehind mates pending row = some []) : Settles mates pending row := by
  induction row generalizing pending with
  | nil =>
    cases h
    exact .nested .nil
  | cons l rest ih =>
    simp only [openBehind] at h
    split_ifs at h with hopens hcloses
    · -- The rest closes the new bracket first, and then those that were pending
      obtain - | ⟨hcloses, hmates, hinner, hrest⟩ := ih h
      have hnested := Nested.enclosed hopens hcloses hmates hinner .nil
      simpa using hrest.behind hnested
    · cases pending with
      | nil => cases h
      | cons opener outer =>
        dsimp only at h
        split_ifs at h with hmates
        exact @Settles.closes _ opener l outer [] rest hcloses hmates .nil (ih h)
    · exact (ih h).behind (nested_singleton (by simpa using hopens) (by simpa using hcloses))

/-- A row nests exactly if it leaves no bracket open. -/
theorem nested_iff_openBehind {row : List Lexeme} :
    Nested mates row ↔ openBehind mates [] row = some [] := by
  refine ⟨fun h => h.openBehind [], fun h => ?_⟩
  cases settles_of_openBehind h with
  | nested hnested => exact hnested

instance : DecidablePred (Nested mates) :=
  fun _ => decidable_of_iff _ nested_iff_openBehind.symm

/-- Only the brackets count. -/
theorem openBehind_brackets (pending row : List Lexeme) :
    openBehind mates pending (row.filter Lexeme.isBracket) = openBehind mates pending row := by
  induction row generalizing pending with
  | nil => rfl
  | cons l rest ih =>
    by_cases hbracket : l.isBracket = true
    · rw [List.filter_cons_of_pos hbracket]
      cases pending <;> simp only [openBehind, ih]
    · rw [Bool.not_eq_true] at hbracket
      obtain ⟨hopens, hcloses⟩ := Lexeme.isBracket_eq_false.1 hbracket
      rw [List.filter_cons_of_neg (by simp [hbracket]), ih, openBehind_plain hopens hcloses]

theorem nested_brackets {row : List Lexeme} :
    Nested mates (row.filter Lexeme.isBracket) ↔ Nested mates row := by
  rw [nested_iff_openBehind, openBehind_brackets, nested_iff_openBehind]

/-! ## §3 Kinds and counts -/

/-- Helper: the brackets open behind a row, those in `front` and further out ones being open in
front of it, are as many as are counted, and stand in front of those further out. -/
private theorem openBehind_frame {front outer row behind : List Lexeme} {depth : Nat}
    (h : openBehind mates (front ++ outer) row = some behind)
    (hdepth : depthBehind front.length row = some depth) :
    ∃ inner, behind = inner ++ outer ∧ inner.length = depth := by
  induction row generalizing front with
  | nil =>
    cases h
    cases hdepth
    exact ⟨front, rfl, rfl⟩
  | cons l rest ih =>
    simp only [openBehind, depthBehind] at h hdepth
    -- The stack and the count move alike, and never reach what is open further out
    split_ifs at h hdepth
    · exact @ih (l :: front) h hdepth
    · cases front with
      | nil => cases hdepth
      | cons opener more =>
        simp only [List.cons_append] at h
        split_ifs at h
        exact ih h hdepth
    · exact ih h hdepth

/-- A balanced row that closes no bracket wrongly leaves open what was open in front of it. -/
theorem Balanced.openBehind_eq {row pending behind : List Lexeme} (h : Balanced row)
    (hbehind : openBehind mates pending row = some behind) : behind = pending := by
  obtain ⟨inner, rfl, hlength⟩ := @openBehind_frame _ [] pending row behind 0 hbehind h
  rw [List.length_eq_zero_iff.1 hlength]
  rfl

/-- Helper: if any bracket closes any, the brackets open behind a row are those that are counted. -/
private theorem openBehind_any {row pending : List Lexeme} {depth : Nat}
    (h : depthBehind pending.length row = some depth) :
    ∃ behind, openBehind (fun _ _ => true) pending row = some behind ∧ behind.length = depth := by
  induction row generalizing pending with
  | nil =>
    cases h
    exact ⟨pending, rfl, rfl⟩
  | cons l rest ih =>
    simp only [openBehind, depthBehind] at h ⊢
    -- Where any bracket closes any, only an empty stack can stop the reading, and then so does the
    -- count
    split_ifs at h ⊢
    · exact @ih (l :: pending) h
    · cases pending with
      | nil => cases h
      | cons opener outer => exact ih h
    · exact ih h

/-- A row is balanced exactly if it nests with any bracket closing any. -/
theorem balanced_iff_nested {row : List Lexeme} :
    Balanced row ↔ Nested (fun _ _ => true) row := by
  refine ⟨fun h => ?_, Nested.balanced⟩
  obtain ⟨behind, hbehind, hlength⟩ := @openBehind_any row [] 0 h
  rw [List.length_eq_zero_iff.1 hlength] at hbehind
  exact nested_iff_openBehind.2 hbehind

theorem Paired.behind {row : List Lexeme} {opener closer : Lexeme} (h : Paired row opener closer)
    (front after : List Lexeme) : Paired (front ++ (row ++ after)) opener closer := by
  obtain ⟨before, inner, rest, rfl, hpaired⟩ := h
  exact ⟨front ++ before, inner, rest ++ after, by simp, hpaired⟩

/-- The brackets of a row that nests are mates. -/
theorem Nested.mates_of_paired {row : List Lexeme} (h : Nested mates row) {opener closer : Lexeme}
    (hpaired : Paired row opener closer) : mates opener closer = true := by
  obtain ⟨before, inner, after, rfl, hinner, hopens, hcloses⟩ := hpaired
  have hread := nested_iff_openBehind.1 h
  -- The opening bracket is pending in front of the closing one, with nothing opened since
  rw [openBehind_append, Option.bind_eq_some_iff] at hread
  obtain ⟨pending, -, hread⟩ := hread
  rw [openBehind_opener hopens, openBehind_append, Option.bind_eq_some_iff] at hread
  obtain ⟨behind, hbehind, hread⟩ := hread
  rw [hinner.openBehind_eq hbehind, openBehind_closer hcloses] at hread
  by_cases hmates : mates opener closer = true
  · exact hmates
  · rw [if_neg hmates] at hread
    cases hread

/-- A row that nests with any bracket closing any nests, if the brackets around its parts are
mates. -/
theorem Nested.of_paired {row : List Lexeme} (h : Nested (fun _ _ => true) row)
    (hmates : ∀ opener closer, Paired row opener closer → mates opener closer = true) :
    Nested mates row := by
  induction h with
  | nil => exact .nil
  | @plain l rest hopens hcloses _ ih =>
    refine .plain hopens hcloses (ih fun opener closer hpaired => hmates opener closer ?_)
    simpa using hpaired.behind [l] []
  | @enclosed opener closer inner rest hopens hcloses _ hinner _ ihInner ihRest =>
    have hhere : mates opener closer = true :=
      hmates opener closer ⟨[], inner, rest, rfl, hinner.balanced, hopens, hcloses⟩
    -- Pairs inside the inner row or behind the closing bracket are pairs of the whole row
    refine .enclosed hopens hcloses hhere (ihInner fun o c hpaired => hmates o c ?_)
      (ihRest fun o c hpaired => hmates o c ?_)
    · exact hpaired.behind [opener] (closer :: rest)
    · simpa using hpaired.behind (opener :: (inner ++ [closer])) []

/-- **A row nests exactly if it is balanced, and all brackets around a balanced row are mates.** So
the only thing that a count of brackets misses is the kind of the bracket that closes. -/
theorem nested_iff_balanced {row : List Lexeme} :
    Nested mates row ↔
      Balanced row ∧ ∀ opener closer, Paired row opener closer → mates opener closer = true := by
  constructor
  · exact fun h => ⟨h.balanced, fun _ _ => h.mates_of_paired⟩
  · rintro ⟨hbalanced, hmates⟩
    exact (balanced_iff_nested.1 hbalanced).of_paired hmates

end QueryWeave
