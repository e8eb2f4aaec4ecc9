import QueryWeave.Proofs.Lexeme.Gap
import QueryWeave.Proofs.Lexeme.Strings

/-!
# Spelled Rows

Which rows of lexemes the scanner gives back. A lexeme is *whole* if its text is one lexeme of its
kind by itself. Whole lexemes are read back from their text as long as what follows each of them
does not run into it, and this concerns the one or two characters behind it only. A row with gaps
in which every lexeme is read back is *spelled*; scanning a text gives a spelled row, and
scanning the characters of a spelled row gives the row.

- `Lexeme.Cuts.whole`, `Lexeme.Cuts.clear`, `Lexeme.Whole.cuts`: reading back one lexeme.
- `scan_of_spells`, `spells_scan`: spelled rows are the rows of scans.
- `Lexeme.Spells.before`: what follows a row can be replaced.
-/

namespace QueryWeave

/-! ## §1 Classes of characters -/

theorem isNamePart_of_isNameStart {c : Char} (h : isNameStart c = true) : isNamePart c = true := by
  simp only [isNameStart, isNamePart, Char.isAlphanum, Bool.or_eq_true, decide_eq_true_eq] at h ⊢
  exact h.imp id .inl

theorem isNumberPart_of_isNumberStart {c : Char} (h : isNumberStart c = true) :
    isNumberPart c = true := by
  simp only [isNumberStart, isNumberPart, Char.isAlphanum, Bool.or_eq_true,
    decide_eq_true_eq] at h ⊢
  rcases h with hminus | hdigit
  · exact .inr hminus
  · exact .inl (.inl (.inl (.inr hdigit)))

/-- Helper: letters and digits are ASCII characters. -/
private theorem toNat_lt_of_isAlphanum {c : Char} (h : c.isAlphanum = true) : c.toNat < 128 := by
  -- Each of the three ranges is bounded by its last character
  have hlast : c.val ≤ 'Z'.val ∨ c.val ≤ 'z'.val ∨ c.val ≤ '9'.val := by
    rcases Bool.or_eq_true_iff.1 h with halpha | hdigit
    · rcases Bool.or_eq_true_iff.1 halpha with hupper | hlower
      · exact .inl (of_decide_eq_true hupper).2
      · exact .inr (.inl (of_decide_eq_true (Bool.and_eq_true_iff.1 hlower).2))
    · exact .inr (.inr (of_decide_eq_true (Bool.and_eq_true_iff.1 hdigit).2))
  show c.val.toNat < 128
  rcases hlast with hupper | hlower | hdigit
  · exact Nat.lt_of_le_of_lt (UInt32.le_iff_toNat_le.1 hupper) (by decide)
  · exact Nat.lt_of_le_of_lt (UInt32.le_iff_toNat_le.1 hlower) (by decide)
  · exact Nat.lt_of_le_of_lt (UInt32.le_iff_toNat_le.1 hdigit) (by decide)

private theorem toNat_lt_of_part {c : Char} (h : isNamePart c = true ∨ isNumberPart c = true) :
    c.toNat < 128 := by
  simp only [isNamePart, isNumberPart, Bool.or_eq_true, decide_eq_true_eq] at h
  rcases h with (rfl | hword) | ((hword | rfl) | rfl) | rfl
  · decide
  · exact toNat_lt_of_isAlphanum hword
  · exact toNat_lt_of_isAlphanum hword
  · decide
  · decide
  · decide

/-- Helper: how the classes lie to each other, character by character. -/
private theorem classes_of_ascii {c : Char} (hc : c.toNat < 128) :
    (isNamePart c = true ∨ isNumberPart c = true → beginsLexeme c = true ∧ c ≠ '$' ∧ c ≠ '"') ∧
    (isNameStart c = true ∨ isNumberStart c = true → c ≠ '.') ∧
    (isNameStart c = true → isNumberStart c = false) := by
  have hall : ∀ n < 128,
      (isNamePart (.ofNat n) = true ∨ isNumberPart (.ofNat n) = true →
        beginsLexeme (.ofNat n) = true ∧ Char.ofNat n ≠ '$' ∧ Char.ofNat n ≠ '"') ∧
      (isNameStart (.ofNat n) = true ∨ isNumberStart (.ofNat n) = true → Char.ofNat n ≠ '.') ∧
      (isNameStart (.ofNat n) = true → isNumberStart (.ofNat n) = false) := by
    -- The classes are tables of ASCII characters: each of them is looked up
    decide +kernel
  have hcode := hall c.toNat hc
  rwa [Char.ofNat_toNat] at hcode

/-- Names and numbers are made of characters that lexemes may begin with. -/
theorem beginsLexeme_of_part {c : Char} (h : isNamePart c = true ∨ isNumberPart c = true) :
    beginsLexeme c = true ∧ c ≠ '$' ∧ c ≠ '"' :=
  (classes_of_ascii (toNat_lt_of_part h)).1 h

private theorem part_of_start {c : Char} (h : isNameStart c = true ∨ isNumberStart c = true) :
    isNamePart c = true ∨ isNumberPart c = true :=
  h.imp isNamePart_of_isNameStart isNumberPart_of_isNumberStart

theorem ne_dot_of_start {c : Char} (h : isNameStart c = true ∨ isNumberStart c = true) :
    c ≠ '.' :=
  (classes_of_ascii (toNat_lt_of_part (part_of_start h))).2.1 h

theorem not_isNumberStart_of_isNameStart {c : Char} (h : isNameStart c = true) :
    isNumberStart c = false :=
  (classes_of_ascii (toNat_lt_of_part (part_of_start (.inl h)))).2.2 h

/-- A run ends where it is said to if it goes on to there, and no further. Names, numbers and
variables are runs, and this is the lemma that reads each of them back. -/
theorem runLength_append_iff (p : Char → Bool) (front rest : List Char) :
    runLength p (front ++ rest) = front.length ↔
      front.all p = true ∧ rest.head?.any p = false := by
  unfold runLength
  induction front with
  | nil =>
    cases rest with
    | nil => simp
    | cons c more => by_cases hc : p c = true <;> simp [hc]
  | cons c more ih =>
    by_cases hc : p c = true
    · simpa [hc] using ih
    · simp [hc]

/-! ## §2 Whole lexemes -/

namespace Lexeme

/-- What a text of a kind looks like, its first character apart. The shape of a mark is what no
other form takes: it begins a lexeme, but neither a string nor a name nor a number. -/
def Shape (c : Char) (more : List Char) : LexemeKind → Prop
  | .ellipsis => c = '.' ∧ more = ['.', '.']
  | .name => isNameStart c = true ∧ more.all isNamePart = true
  | .other => isNumberStart c = true ∧ more.all isNumberPart = true
  | .punctuator mark => c = mark ∧ more = [] ∧ beginsLexeme c = true ∧ c ≠ '"' ∧
      isNameStart c = false ∧ isNumberStart c = false
  | .stringValue => c = '"' ∧ stringLength (more ++ [' ']) = more.length
  | .variable => c = '$' ∧ more.head?.any isNameStart = true ∧ more.all isNamePart = true

/-- A lexeme whose text is one lexeme of its kind by itself. Its strings are closed.

Wholeness is about the lexeme alone. What stands behind it comes in by `clearOf`, and the two
together are what the scanner asks for (`Whole.cuts`). -/
def Whole (l : Lexeme) : Prop :=
  ∃ c more, l.text = c :: more ∧ Shape c more l.kind

/-- Whether a text behind a lexeme does not run into it. The longest condition is that of a mark: a
dot must not become an ellipsis, nor a dollar sign a variable. -/
def clearOf (l : Lexeme) (following : List Char) : Bool :=
  match l.kind with
  | .ellipsis => true
  | .name | .variable => !following.head?.any isNamePart
  | .other => !following.head?.any isNumberPart
  | .punctuator mark =>
    !(mark = '.' && following.take 2 = ['.', '.']) &&
      !(mark = '$' && following.head?.any isNameStart)
  | .stringValue => l.text ≠ ['"', '"'] || following.head? ≠ some '"'

/-- Whether the scanner cuts a lexeme off the text that begins with it and goes on with
`following`. -/
def Cuts (l : Lexeme) (following : List Char) : Prop :=
  ∃ c more, l.text = c :: more ∧ beginsLexeme c = true ∧
    classify c (more ++ following) = (l.kind, more.length)

/-- A whole lexeme is cut off in front of every text that does not run into it. The proof goes
through the kinds, and for each shows that the forms tried earlier do not match. -/
theorem Whole.cuts {l : Lexeme} (hwhole : l.Whole) {following : List Char}
    (hclear : l.clearOf following = true) : l.Cuts following := by
  obtain ⟨c, more, htext, hshape⟩ := hwhole
  refine ⟨c, more, htext, ?_⟩
  unfold clearOf at hclear
  cases hkind : l.kind with
  | ellipsis =>
    rw [hkind] at hshape
    obtain ⟨rfl, rfl⟩ := hshape
    exact ⟨by decide, by simp [classify]⟩
  | name =>
    rw [hkind] at hshape hclear
    obtain ⟨hstart, hparts⟩ := hshape
    have hbegins := beginsLexeme_of_part (.inl (isNamePart_of_isNameStart hstart))
    have hrun : runLength isNamePart (more ++ following) = more.length :=
      (runLength_append_iff _ _ _).2 ⟨hparts, by simpa using hclear⟩
    refine ⟨hbegins.1, ?_⟩
    simp [classify, ne_dot_of_start (.inl hstart), hbegins.2, hstart, hrun]
  | other =>
    rw [hkind] at hshape hclear
    obtain ⟨hstart, hparts⟩ := hshape
    have hbegins := beginsLexeme_of_part (.inr (isNumberPart_of_isNumberStart hstart))
    -- Names are tried before numbers, and must not match
    have hname : isNameStart c = false := by
      by_contra hname
      simp only [Bool.not_eq_false] at hname
      simp [not_isNumberStart_of_isNameStart hname] at hstart
    have hrun : runLength isNumberPart (more ++ following) = more.length :=
      (runLength_append_iff _ _ _).2 ⟨hparts, by simpa using hclear⟩
    refine ⟨hbegins.1, ?_⟩
    simp [classify, ne_dot_of_start (.inr hstart), hbegins.2, hname, hstart, hrun]
  | punctuator mark =>
    rw [hkind] at hshape hclear
    obtain ⟨rfl, rfl, hbegins, hquote, hname, hnumber⟩ := hshape
    simp only [Bool.and_eq_true, Bool.not_eq_true'] at hclear
    refine ⟨hbegins, ?_⟩
    -- A mark is what is left when no other form matches; clearness rules out the first two
    unfold classify
    rw [if_neg, if_neg, if_neg (by simpa using hquote), if_neg (by simp [hname]),
      if_neg (by simp [hnumber])]
    · rfl
    · exact Bool.eq_false_iff.1 hclear.2
    · exact Bool.eq_false_iff.1 hclear.1
  -- What is read back is its length, which does not depend on what follows
  | stringValue =>
    rw [hkind] at hshape hclear
    obtain ⟨rfl, hclosed⟩ := hshape
    refine ⟨by decide, ?_⟩
    have hlength : stringLength (more ++ following) = more.length := by
      apply stringLength_append (by simp) hclosed
      intro htwo
      simpa [htext, htwo] using hclear
    simp [classify, hlength]
  | «variable» =>
    rw [hkind] at hshape hclear
    obtain ⟨rfl, hstart, hparts⟩ := hshape
    refine ⟨by decide, ?_⟩
    have hrun : runLength isNamePart (more ++ following) = more.length :=
      (runLength_append_iff _ _ _).2 ⟨hparts, by simpa using hclear⟩
    have hhead : (more ++ following).head?.any isNameStart = true := by
      cases more with
      | nil => simp at hstart
      | cons d rest => simpa using hstart
    unfold classify
    rw [if_neg (by simp), if_pos (by rw [hhead]; rfl), hrun]

/-- Helper: what is cut off is whole, unless it is a string that only the end of the text ends, and
what follows does not run into it. -/
private theorem Cuts.inversion {l : Lexeme} {following : List Char} (h : l.Cuts following) :
    (following ≠ [] ∨ l.kind ≠ .stringValue → l.Whole) ∧ l.clearOf following = true := by
  obtain ⟨c, more, htext, hbegins, hclass⟩ := h
  -- Wholeness of a string is said with a blank behind it, which stands for whatever follows
  have hspace : stringLength (more ++ following) = more.length → following ≠ [] →
      stringLength (more ++ [' ']) = more.length := fun hlength hmore =>
    stringLength_append hmore hlength fun _ => by simp
  -- One case for each form that the scanner tells apart, in its order
  unfold classify at hclass
  unfold Whole clearOf
  split_ifs at hclass with hdots hvariable hquote hname hnumber <;>
    simp only [Prod.mk.injEq] at hclass <;> obtain ⟨hkind, hlength⟩ := hclass <;>
    rw [← hkind]
  · -- An ellipsis: the two characters behind the first are dots
    simp only [Bool.and_eq_true, decide_eq_true_eq] at hdots
    have hmore : more = ['.', '.'] := by
      rw [← hdots.2, hlength, List.take_append_of_le_length (Nat.le_refl _), List.take_length]
    exact ⟨fun _ => ⟨c, more, htext, hdots.1, hmore⟩, rfl⟩
  · -- A variable: the run of its name is not empty
    have hrun := (runLength_append_iff _ _ _).1 hlength
    simp only [Bool.and_eq_true, decide_eq_true_eq] at hvariable
    have hstart : more.head?.any isNameStart = true := by
      cases more with
      | nil =>
        -- The run of the name would be empty, but its first character stands behind the dollar
        cases following with
        | nil => simp at hvariable
        | cons d rest =>
          have hpart := isNamePart_of_isNameStart (c := d) (by simpa using hvariable.2)
          simp [hpart] at hrun
      | cons d rest => simpa using hvariable.2
    exact ⟨fun _ => ⟨c, more, htext, hvariable.1, hstart, hrun.1⟩, by simpa using hrun.2⟩
  · -- A string: closed, if the end of the text is not what ended it
    refine ⟨fun hends => ⟨c, more, htext, hquote, hspace hlength ?_⟩, ?_⟩
    · exact hends.resolve_right fun hne => hne rfl
    · -- A third quote would open a block string, which is longer
      by_contra hthree
      simp only [Bool.or_eq_true, decide_eq_true_eq, not_or, not_not] at hthree
      obtain ⟨htwo, hhead⟩ := hthree
      have hmore : more = ['"'] := (List.cons.inj (htext.symm.trans htwo)).2
      obtain ⟨rest, rfl⟩ := List.head?_eq_some_iff.1 hhead
      simp [hmore, stringLength] at hlength
  · -- A name, and then a number: the run of each ends where the lexeme does
    have hrun := (runLength_append_iff _ _ _).1 hlength
    exact ⟨fun _ => ⟨c, more, htext, hname, hrun.1⟩, by simpa using hrun.2⟩
  · have hrun := (runLength_append_iff _ _ _).1 hlength
    exact ⟨fun _ => ⟨c, more, htext, hnumber, hrun.1⟩, by simpa using hrun.2⟩
  · -- A mark: the forms in front of it were tried, and did not match
    have hmore : more = [] := List.length_eq_zero_iff.1 hlength.symm
    subst hmore
    have hshape : Shape c [] (.punctuator c) :=
      ⟨rfl, rfl, hbegins, by simpa using hquote, by simpa using hname, by simpa using hnumber⟩
    refine ⟨fun _ => ⟨c, [], htext, hshape⟩, ?_⟩
    have hdots : (c = '.' && following.take 2 = ['.', '.']) = false := Bool.eq_false_iff.2 hdots
    have hvariable : (c = '$' && following.head?.any isNameStart) = false :=
      Bool.eq_false_iff.2 hvariable
    simp only [hdots, hvariable]
    rfl

theorem Cuts.whole {l : Lexeme} {following : List Char} (h : l.Cuts following)
    (hends : following ≠ [] ∨ l.kind ≠ .stringValue) : l.Whole :=
  h.inversion.1 hends

theorem Cuts.clear {l : Lexeme} {following : List Char} (h : l.Cuts following) :
    l.clearOf following = true :=
  h.inversion.2

theorem Whole.all_isNamePart {l : Lexeme} (h : l.Whole) (hkind : l.kind = .name) :
    l.text.all isNamePart = true := by
  obtain ⟨c, more, htext, hshape⟩ := h
  rw [hkind] at hshape
  rw [htext, List.all_cons, isNamePart_of_isNameStart hshape.1, hshape.2]
  rfl

end Lexeme

/-! ## §3 Names -/

/-- Characters that make up a name. Names of entries and flat names are made of such characters too,
and so a text with one of them in it is read with that name. -/
def IsName (name : List Char) : Prop :=
  ∃ c more, name = c :: more ∧ isNameStart c = true ∧ more.all isNamePart = true

theorem IsName.all {name : List Char} (h : IsName name) : name.all isNamePart = true := by
  obtain ⟨c, more, rfl, hstart, hmore⟩ := h
  simp [isNamePart_of_isNameStart hstart, hmore]

theorem IsName.append {name more : List Char} (h : IsName name)
    (hmore : more.all isNamePart = true) : IsName (name ++ more) := by
  obtain ⟨c, rest, rfl, hstart, hrest⟩ := h
  exact ⟨c, rest ++ more, rfl, hstart, by rw [List.all_append, hrest, hmore]; rfl⟩

theorem Lexeme.Whole.isName {l : Lexeme} (h : l.Whole) (hkind : l.kind = .name) :
    IsName l.text := by
  obtain ⟨c, more, htext, hshape⟩ := h
  rw [hkind] at hshape
  exact ⟨c, more, htext, hshape⟩

theorem IsName.whole {l : Lexeme} (h : IsName l.text) (hkind : l.kind = .name) : l.Whole := by
  obtain ⟨c, more, htext, hshape⟩ := h
  refine ⟨c, more, htext, ?_⟩
  rw [hkind]
  exact hshape

/-- A variable is a dollar sign and a name. -/
theorem Lexeme.Whole.isName_drop {l : Lexeme} (h : l.Whole) (hkind : l.kind = .variable) :
    ∃ name, l.text = '$' :: name ∧ IsName name := by
  obtain ⟨c, more, htext, hshape⟩ := h
  rw [hkind] at hshape
  obtain ⟨rfl, hstart, hmore⟩ := hshape
  cases more with
  | nil => simp at hstart
  | cons d rest =>
    simp only [List.all_cons, Bool.and_eq_true] at hmore
    exact ⟨d :: rest, htext, d, rest, rfl, by simpa using hstart, hmore.2⟩

theorem IsName.whole_variable {l : Lexeme} {name : List Char} (h : IsName name)
    (hkind : l.kind = .variable) (htext : l.text = '$' :: name) : l.Whole := by
  obtain ⟨c, more, rfl, hstart, hmore⟩ := h
  refine ⟨'$', c :: more, htext, ?_⟩
  rw [hkind]
  exact ⟨rfl, by simpa using hstart, by simp [isNamePart_of_isNameStart hstart, hmore]⟩

/-! ## §4 What follows a lexeme -/

namespace Lexeme

/-- Characters that nothing in front of them runs into: no name and no number goes on with one, and
no two quotes become three. No dot is among them, since a dot continues a number. -/
def separates (c : Char) : Bool :=
  !isNamePart c && !isNumberPart c && c ≠ '"'

theorem clearOf_of_separates (l : Lexeme) {c : Char} (h : separates c = true)
    (rest : List Char) : l.clearOf (c :: rest) = true := by
  simp only [separates, Bool.and_eq_true, Bool.not_eq_true', decide_eq_true_eq] at h
  obtain ⟨⟨hname, hnumber⟩, hquote⟩ := h
  have hdot : c ≠ '.' := fun heq => by simp [heq, isNumberPart] at hnumber
  have hstart : isNameStart c = false := by
    by_contra hstart
    simp [isNamePart_of_isNameStart (Bool.of_not_eq_false hstart)] at hname
  -- Whatever the kind, the character behind is none of those that the kind looks for
  unfold clearOf
  cases l.kind <;> simp [hname, hnumber, hquote, hdot, hstart]

theorem clearOf_nil (l : Lexeme) : l.clearOf [] = true := by
  unfold clearOf
  -- At the end of a text there is no character to run into
  cases l.kind <;> simp

/-- Ignored characters separate, and so does the sign that begins a comment. -/
theorem separates_of_not_beginsLexeme {c : Char} (h : beginsLexeme c = false) :
    separates c = true := by
  have hpart : ¬(isNamePart c = true ∨ isNumberPart c = true) := fun hpart => by
    simp [(beginsLexeme_of_part hpart).1] at h
  have hquote : c ≠ '"' := fun heq => by
    rw [heq] at h
    exact absurd h (by decide)
  simp only [not_or, Bool.not_eq_true] at hpart
  simp [separates, hpart.1, hpart.2, hquote]

theorem separates_of_gapState {gap : List Char} (h : (gapState false gap).isSome) :
    gap.head?.all separates = true := by
  cases gap with
  | nil => rfl
  | cons c rest => exact separates_of_not_beginsLexeme (not_beginsLexeme_of_gapState h)

/-! ## §5 Spelled rows

A row of lexemes is spelled in front of a text if each of them is cut off where it was written. This
is kept under append and under any change that looks the same from the front, and it is all that
scanning needs. -/

@[simp] theorem charsOf_nil : charsOf [] = [] := rfl

@[simp] theorem charsOf_cons (l : Lexeme) (rest : List Lexeme) :
    charsOf (l :: rest) = l.gap ++ l.text ++ charsOf rest := rfl

@[simp] theorem charsOf_append (first second : List Lexeme) :
    charsOf (first ++ second) = charsOf first ++ charsOf second :=
  List.flatMap_append

/-- Whether the scanner gives a row back from its characters when `following` stands behind it. What
follows is part of the question, because the last lexeme may look at it: a name would run on into a
letter, and a pair of quotes into a third one. -/
def Spells : List Lexeme → List Char → Prop
  | [], _ => True
  | l :: rest, following =>
    IsGap l.gap ∧ l.Cuts (charsOf rest ++ following) ∧ Spells rest following

/-- Rows are spelled one behind the other if each is spelled in front of what stands there. -/
theorem spells_append {first second : List Lexeme} {following : List Char} :
    Spells (first ++ second) following ↔
      Spells first (charsOf second ++ following) ∧ Spells second following := by
  induction first with
  | nil => simp [Spells]
  | cons l rest ih =>
    simp only [List.cons_append, Spells, ih, charsOf_append, List.append_assoc, and_assoc]

/-- The lexemes of a spelled row are whole if anything follows the row. -/
theorem Spells.whole {row : List Lexeme} {following : List Char} (h : Spells row following)
    (hmore : following ≠ []) : ∀ l ∈ row, l.Whole := by
  induction row with
  | nil => simp
  | cons l rest ih =>
    obtain ⟨-, hcuts, hrest⟩ := h
    intro m hm
    rcases List.mem_cons.1 hm with rfl | hm
    · exact hcuts.whole (.inl fun hnil => hmore (List.append_eq_nil_iff.1 hnil).2)
    · exact ih hrest m hm

/-- Only a string may be left open at the end of a text. -/
theorem Spells.whole_of_kind {row : List Lexeme} {following : List Char}
    (h : Spells row following) :
    ∀ l ∈ row, l.kind ≠ .stringValue → l.Whole := by
  induction row with
  | nil => simp
  | cons l rest ih =>
    obtain ⟨-, hcuts, hrest⟩ := h
    intro m hm hkind
    rcases List.mem_cons.1 hm with rfl | hm
    · exact hcuts.whole (.inr hkind)
    · exact ih hrest m hm hkind

/-- A string that is left open stands last in its row. -/
theorem Spells.whole_of_last {row : List Lexeme} {following : List Char} (h : Spells row following)
    (hlast : ∀ l ∈ row.getLast?, l.kind ≠ .stringValue) : ∀ l ∈ row, l.Whole := by
  rcases List.eq_nil_or_concat row with rfl | ⟨front, l, rfl⟩
  · simp
  · rw [List.concat_eq_append] at h hlast ⊢
    obtain ⟨hfront, hl⟩ := spells_append.1 h
    -- Whatever stands in front of the last lexeme has that lexeme behind it
    have hmore : charsOf [l] ++ following ≠ [] := by
      obtain ⟨c, more, htext, -⟩ := hl.2.1
      simp [htext]
    refine List.forall_mem_append.2 ⟨hfront.whole hmore, ?_⟩
    simpa using hl.2.1.whole (.inr (hlast l (by simp)))

theorem Spells.isGap {row : List Lexeme} {following : List Char} (h : Spells row following) :
    ∀ l ∈ row, IsGap l.gap := by
  induction row with
  | nil => simp
  | cons l rest ih => exact List.forall_mem_cons.2 ⟨h.1, ih h.2.2⟩

/-- No blank stands at the end of a row of names. -/
theorem Spells.getLast?_names {row : List Lexeme} {following : List Char} (h : Spells row following)
    (hnames : ∀ l ∈ row, l.kind = .name) : (charsOf row).getLast? ≠ some ' ' := by
  rcases List.eq_nil_or_concat row with rfl | ⟨front, l, rfl⟩
  · simp
  · have hl : l ∈ front.concat l := by simp
    have hname := hnames l hl
    have hwhole := h.whole_of_kind l hl (by simp [hname])
    -- The last character of the row is one of the last name, and no name holds a blank
    have hparts := hwhole.all_isNamePart hname
    obtain ⟨c, more, htext, -⟩ := hwhole
    have hlast : (charsOf (front.concat l)).getLast? = l.text.getLast? := by
      simp [htext, List.getLast?_append, List.getLast?_cons]
    rw [hlast]
    intro hblank
    have hpart := List.all_eq_true.1 hparts ' ' (List.mem_of_getLast? hblank)
    exact absurd hpart (by decide)

/-- A mark is spelled by its character. -/
theorem Spells.text_of_isMark {row : List Lexeme} {following : List Char} (h : Spells row following)
    {l : Lexeme} (hl : l ∈ row) {mark : Char} (hmark : l.isMark mark = true) : l.text = [mark] := by
  have hkind := Lexeme.isMark_iff.1 hmark
  obtain ⟨c, more, htext, hshape⟩ := h.whole_of_kind l hl (by simp [hkind])
  rw [hkind] at hshape
  obtain ⟨rfl, rfl, -⟩ := hshape
  exact htext

/-- Whether a text looks, to what stands in front of it, like the text it replaces. A lexeme looks
at the next character, and a dot at the next two, since an ellipsis takes three of them; so a
replacement that agrees on these is not noticed. -/
structure Stands (old new : List Char) : Prop where
  head : new.head? = old.head?
  dots : new.take 2 = ['.', '.'] → old.take 2 = ['.', '.']

theorem Stands.clearOf {old new : List Char} (h : Stands old new) {l : Lexeme}
    (hclear : l.clearOf old = true) : l.clearOf new = true := by
  obtain ⟨hhead, hdots⟩ := h
  unfold Lexeme.clearOf at hclear ⊢
  cases hkind : l.kind with
  | punctuator mark =>
    simp only [hkind, Bool.and_eq_true, Bool.not_eq_true', Bool.and_eq_false_iff,
      decide_eq_false_iff_not] at hclear ⊢
    rw [hhead]
    exact ⟨hclear.1.imp id fun hold hnew => hold (hdots hnew), hclear.2⟩
  | _ => simp only [hkind, hhead] at hclear ⊢ <;> exact hclear

theorem stands_rfl {text : List Char} : Stands text text := ⟨rfl, id⟩

/-- Behind a common beginning, only an initial dot could still be told apart. -/
theorem stands_append {front old new : List Char} (hfront : front ≠ [])
    (hdot : new.head? = some '.' → old.head? = some '.') :
    Stands (front ++ old) (front ++ new) := by
  -- One character in front leaves the second of two dots to be told apart, and two leave nothing
  match front, hfront with
  | [c], _ =>
    -- The second of two dots would be the first character behind the front
    refine ⟨rfl, fun htake => ?_⟩
    simp only [List.cons_append, List.nil_append, List.take_succ_cons, List.cons.injEq] at htake ⊢
    obtain ⟨rfl, htake⟩ := htake
    have hnew : new.head? = some '.' := by
      cases new with
      | nil => simp at htake
      | cons d more => simp at htake ⊢; exact htake
    obtain ⟨more, rfl⟩ := List.head?_eq_some_iff.1 (hdot hnew)
    simp
  | c :: d :: more, _ => exact ⟨rfl, id⟩

/-- Two characters in front are all that can be looked at. -/
theorem stands_of_two {front : List Char} (h : 2 ≤ front.length) (old new : List Char) :
    Stands (front ++ old) (front ++ new) := by
  match front, h with
  | _ :: _ :: _, _ => exact ⟨rfl, id⟩

theorem Stands.append {old new : List Char} (h : Stands old new) (front : List Char) :
    Stands (front ++ old) (front ++ new) := by
  cases front with
  | nil => exact h
  | cons c more => exact stands_append (by simp) fun hnew => h.head ▸ hnew

theorem Cuts.stands {l : Lexeme} {old new : List Char} (h : l.Cuts old) (hstands : Stands old new) :
    l.Cuts new := by
  cases old with
  | nil =>
    have hnew : new = [] := List.head?_eq_none_iff.1 hstands.head
    rwa [hnew]
  | cons c rest => exact (h.whole (.inl (by simp))).cuts (hstands.clearOf h.clear)

theorem Spells.stands {row : List Lexeme} {old new : List Char} (h : Spells row old)
    (hstands : Stands old new) : Spells row new := by
  induction row with
  | nil => trivial
  | cons l rest ih =>
    obtain ⟨hgap, hcuts, hrest⟩ := h
    exact ⟨hgap, hcuts.stands (hstands.append _), ih hrest⟩

/-- An ellipsis is cut off whatever follows it, and with its text looks the same. -/
theorem Cuts.ellipsis {l : Lexeme} {old : List Char} (h : l.Cuts old) (hkind : l.kind = .ellipsis)
    (new : List Char) :
    l.Cuts new ∧ Stands (l.gap ++ (l.text ++ old)) (l.gap ++ (l.text ++ new)) := by
  have hwhole := h.whole (.inr (by simp [hkind]))
  refine ⟨hwhole.cuts (by simp [Lexeme.clearOf, hkind]), Stands.append ?_ l.gap⟩
  obtain ⟨c, more, htext, hshape⟩ := hwhole
  rw [hkind] at hshape
  obtain ⟨rfl, rfl⟩ := hshape
  rw [htext]
  exact ⟨rfl, fun htake => htake⟩

/-- Whether a text may replace another behind a lexeme: it looks the same, or both begin with a name
and the lexeme is no number. A name may take the place of another name there; behind a number it may
not, because a number stops in front of some letters only. -/
def Leads (l : Lexeme) (old new : List Char) : Prop :=
  Stands old new ∨
    l.kind ≠ .other ∧ old.head?.any isNameStart = true ∧ new.head?.any isNameStart = true

theorem Cuts.leads {l : Lexeme} {old new : List Char} (h : l.Cuts old) (hleads : l.Leads old new) :
    l.Cuts new := by
  rcases hleads with hstands | ⟨hkind, hold, hnew⟩
  · exact h.stands hstands
  · have hne : old ≠ [] := fun heq => by simp [heq] at hold
    apply (h.whole (.inl hne)).cuts
    obtain ⟨c, rest, rfl⟩ := List.exists_cons_of_ne_nil hne
    cases new with
    | nil => simp at hnew
    | cons d more =>
      have hc : isNameStart c = true := by simpa using hold
      have hd : isNameStart d = true := by simpa using hnew
      have hpart := isNamePart_of_isNameStart hc
      have hbegins := beginsLexeme_of_part (.inl (isNamePart_of_isNameStart hd))
      have hdot := ne_dot_of_start (.inl hd)
      have hclear := h.clear
      -- A name would have run into the old text already
      unfold clearOf at hclear ⊢
      cases hl : l.kind with
      | other => exact absurd hl hkind
      | punctuator mark =>
        simp only [hl, List.head?_cons, Option.any_some, hc, Bool.and_true, Bool.and_eq_true,
          Bool.not_eq_true', decide_eq_false_iff_not] at hclear
        simp [hdot, hclear.2]
      | ellipsis => rfl
      | name => simp [hl, hpart] at hclear
      | «variable» => simp [hl, hpart] at hclear
      | stringValue => simp [hbegins.2.2]

theorem Leads.append {l : Lexeme} {old new : List Char} (h : l.Leads old new) {front : List Char}
    (hfront : front ≠ []) : Stands (front ++ old) (front ++ new) := by
  rcases h with hstands | ⟨-, -, hnew⟩
  · exact hstands.append front
  · apply stands_append hfront
    intro hdot
    rw [hdot] at hnew
    exact absurd hnew (by decide)

/-- What follows a spelled row of whole lexemes can be replaced by something that nothing runs into.
This is how a row that was read from one text is put into another: all that has to be known of the
new surroundings is the character behind the row. -/
theorem Spells.before_of_whole {row : List Lexeme} {following other : List Char}
    (h : Spells row following) (hwhole : ∀ l ∈ row, l.Whole)
    (hother : other.head?.all separates = true) : Spells row other := by
  have hclear : ∀ l : Lexeme, l.clearOf other = true := fun l => by
    cases other with
    | nil => exact clearOf_nil l
    | cons c rest => exact clearOf_of_separates l (by simpa using hother) rest
  have hdot : other.head? = some '.' → following.head? = some '.' := fun heq => by
    rw [heq] at hother
    exact absurd hother (by decide)
  induction row with
  | nil => trivial
  | cons l rest ih =>
    obtain ⟨hgap, hcuts, hrest⟩ := h
    refine ⟨hgap, (hwhole l List.mem_cons_self).cuts ?_,
      ih hrest fun m hm => hwhole m (List.mem_cons_of_mem _ hm)⟩
    -- Either the lexeme stands in front of the new text, or in front of another lexeme
    by_cases hnil : charsOf rest = []
    · rw [hnil]
      exact hclear l
    · exact (stands_append hnil hdot).clearOf hcuts.clear

theorem Spells.before {row : List Lexeme} {following other : List Char}
    (h : Spells row following) (hmore : following ≠ [])
    (hother : other.head?.all separates = true) : Spells row other :=
  h.before_of_whole (h.whole hmore) hother

end Lexeme

/-! ## §6 Scanning -/

/-- Helper: one step of the scanner. -/
private theorem scan_of_drop {cs rest : List Char} {c : Char}
    (h : cs.drop (gapLength false cs) = c :: rest) :
    scan cs = (scan (rest.drop (classify c rest).2)).cons
      ⟨cs.take (gapLength false cs), (classify c rest).1, c :: rest.take (classify c rest).2⟩ := by
  rw [scan.eq_def]
  dsimp only
  -- The first case is an empty rest, and there is none
  split
  · rename_i hnil
    rw [h] at hnil
    cases hnil
  · rename_i d more heq
    rw [h] at heq
    cases heq
    rfl

/-- A lexeme does not reach beyond the end of its text. -/
theorem classify_le_length (c : Char) (rest : List Char) :
    (classify c rest).2 ≤ rest.length := by
  unfold classify
  -- One case for each kind of lexeme; only an ellipsis asks for characters that have to be there
  split_ifs with hdots
  · simp only [Bool.and_eq_true, decide_eq_true_eq] at hdots
    have hlength := congrArg List.length hdots.2
    simp only [List.length_take, List.length_cons, List.length_nil] at hlength
    show 2 ≤ rest.length
    omega
  · exact (List.takeWhile_sublist _).length_le
  · exact stringLength_le_length rest
  · exact (List.takeWhile_sublist _).length_le
  · exact (List.takeWhile_sublist _).length_le
  · exact Nat.zero_le _

/-- A text without lexemes is all trailer. -/
theorem scan_of_gapState {trailer : List Char} (h : (gapState false trailer).isSome) :
    scan trailer = ⟨[], trailer⟩ := by
  rw [scan.eq_def]
  dsimp only
  split
  · rfl
  · rename_i c rest heq
    rw [gapLength_of_gapState h, List.drop_length] at heq
    cases heq

/-- The lexemes of a spelled row are scanned one by one, and then what follows the row. With
`spells_scan` it says that spelled rows are exactly what the scanner finds, so a text may be taken
apart and put together as a row of lexemes. -/
theorem scan_of_spells {row : List Lexeme} {following : List Char}
    (h : Lexeme.Spells row following) :
    scan (Lexeme.charsOf row ++ following) =
      ⟨row ++ (scan following).lexemes, (scan following).trailer⟩ := by
  induction row with
  | nil => rfl
  | cons l rest ih =>
    obtain ⟨hgap, ⟨c, more, htext, hbegins, hclass⟩, hrest⟩ := h
    -- One step of the scanner measures the gap and cuts the text of the lexeme off
    have hchars : Lexeme.charsOf (l :: rest) ++ following =
        l.gap ++ c :: (more ++ (Lexeme.charsOf rest ++ following)) := by
      simp [htext]
    have hlength := hgap.gapLength_append_cons hbegins (more ++ (Lexeme.charsOf rest ++ following))
    rw [hchars, scan_of_drop (by rw [hlength, List.drop_left]), hlength, hclass]
    simp only [List.drop_left, List.take_left, ih hrest, ← htext]
    rfl

/-- The lexemes of a text are spelled, and its trailer is ignored. Every theorem about a text that
is read, changed and read again begins here. -/
theorem spells_scan (cs : List Char) :
    Lexeme.Spells (scan cs).lexemes (scan cs).trailer ∧
      (gapState false (scan cs).trailer).isSome := by
  fun_induction scan cs with
  | case1 cs gap hdrop =>
    have hgap := gapState_take_gapLength false cs
    simp only [gap] at hdrop
    rw [hdrop] at hgap
    exact ⟨trivial, hgap⟩
  | case2 cs gap c rest hdrop kind more hclass ih =>
    have hgap := gapState_take_gapLength false cs
    simp only [gap] at hdrop
    rw [hdrop] at hgap
    have hbehind : Lexeme.charsOf (scan (rest.drop more)).lexemes ++
        (scan (rest.drop more)).trailer = rest.drop more := chars_scan _
    -- The classified text does not reach beyond the end, so its length is what was classified
    have hmore : (rest.take more).length = more := by
      have hle := classify_le_length c rest
      rw [hclass] at hle
      exact List.length_take_of_le hle
    refine ⟨⟨hgap.1, ⟨c, rest.take more, rfl, hgap.2, ?_⟩, ih.1⟩, ih.2⟩
    show classify c (rest.take more ++ (_ ++ (scan (rest.drop more)).trailer)) = _
    rw [hbehind, List.take_append_drop, hmore]
    exact hclass

/-- A spelled row with ignored characters behind it is what scanning gives. -/
theorem scan_charsOf {row : List Lexeme} {trailer : List Char} (h : Lexeme.Spells row trailer)
    (htrailer : (gapState false trailer).isSome) :
    scan (Lexeme.charsOf row ++ trailer) = ⟨row, trailer⟩ := by
  rw [scan_of_spells h, scan_of_gapState htrailer, List.append_nil]

/-! ## §7 Gaps in front -/

/-- A lexeme without its gap. -/
abbrev Token := LexemeKind × List Char

/-- What a lexeme is, apart from its gap. -/
def Lexeme.token (l : Lexeme) : Token :=
  (l.kind, l.text)

/-- The tokens of a text. -/
def tokensOf (text : String) : List Token :=
  (scanText text).lexemes.map Lexeme.token

/-- The scan of a text behind a gap. -/
def Scan.indent (gap : List Char) (s : Scan) : Scan :=
  match s.lexemes with
  | [] => ⟨[], gap ++ s.trailer⟩
  | l :: rest => ⟨{ l with gap := gap ++ l.gap } :: rest, s.trailer⟩

@[simp] theorem tokens_indent (gap : List Char) (s : Scan) :
    (s.indent gap).lexemes.map Lexeme.token = s.lexemes.map Lexeme.token := by
  obtain ⟨row, trailer⟩ := s
  cases row <;> rfl

theorem scan_gap_append {gap : List Char} (hgap : IsGap gap) (cs : List Char) :
    scan (gap ++ cs) = (scan cs).indent gap := by
  have hspells := spells_scan cs
  have hchars : Lexeme.charsOf (scan cs).lexemes ++ (scan cs).trailer = cs := chars_scan cs
  unfold Scan.indent
  generalize scan cs = s at hspells hchars ⊢
  obtain ⟨row, trailer⟩ := s
  obtain ⟨hrow, htrailer⟩ := hspells
  cases row with
  | nil =>
    have hstate : (gapState false (gap ++ trailer)).isSome := by
      rw [gapState_append, hgap]
      exact htrailer
    rw [← hchars]
    exact scan_of_gapState hstate
  | cons l rest =>
    -- The gap of the first lexeme grows, and all else is spelled as before
    obtain ⟨hl, hcuts, hrest⟩ := hrow
    have hindented : Lexeme.Spells ({ l with gap := gap ++ l.gap } :: rest) trailer :=
      ⟨hgap.append hl, hcuts, hrest⟩
    have hscan := scan_charsOf hindented htrailer
    simp only [Lexeme.charsOf_cons, List.append_assoc] at hscan hchars
    rw [← hchars]
    exact hscan

/-- Blank characters in front of a text go into the gap of its first lexeme. -/
theorem scan_dropBlank (cs : List Char) :
    scan cs = (scan (Text.dropBlank cs)).indent (cs.takeWhile Text.isBlank) := by
  have hfront : IsGap (cs.takeWhile Text.isBlank) := isGap_of_blank fun c hc =>
    List.all_eq_true.1 (List.all_takeWhile (p := Text.isBlank)) c hc
  rw [← scan_gap_append hfront, Text.dropBlank, List.takeWhile_append_dropWhile]

end QueryWeave
