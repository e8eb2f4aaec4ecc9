import QueryWeave.Proofs.Lexeme.Spelling

/-!
# Joined Texts

Texts joined by line feeds, as definitions are put into a document. A line feed ends names, numbers,
comments and strings in quotes; but a string that is left open at the end of a text takes the line
feed in, and a block string goes on beyond it. So the tokens of joined texts are those of each text
exactly if no text but the last is left open.

Whether a text is left open is a matter of its comments and strings alone: names, numbers and marks
may be put into it or taken out, and may run into one another.

- `LeftOpen`: texts that end inside a string.
- `leftOpen_iff_endsOpen`: how it is told, character by character.
- `not_leftOpen_of_getLast?`, `leftOpen_congr`: how it is told from lexemes.
- `tokens_joined_iff`: the tokens of joined texts.
-/

namespace QueryWeave

/-! ## §1 Texts that end inside a string

Whether a text ends inside a string can be told by going over its characters. On a row of lexemes it
comes to asking whether the last of them is a string that has no end. -/

/-- Whether a text ends inside a string: one of its lexemes is a string without an end. It can only
be the last, as such a string takes in all that follows. -/
def LeftOpen (text : String) : Prop :=
  ∃ l ∈ (scanText text).lexemes, ¬l.Whole

/-- Whether a text that is read from the outside, or from inside a comment, ends inside a string.
Only comments and strings are followed. A string without an end is told by putting a blank behind
the text: the string grows with it. -/
def endsOpen (inComment : Bool) : List Char → Bool
  | [] => false
  | c :: rest =>
    if inComment && !isLineBreak c then endsOpen true rest
    else if c = '#' then endsOpen true rest
    else if c = '"' then
      if stringLength (rest ++ [' ']) = stringLength rest then
        endsOpen false (rest.drop (stringLength rest))
      else true
    else endsOpen false rest
termination_by cs => cs.length
decreasing_by
  all_goals
    simp only [List.length_cons, List.length_drop]
    omega

/-- Characters that do not matter to strings and comments. -/
def neutral (c : Char) : Bool :=
  c ≠ '#' && c ≠ '"'

theorem endsOpen_neutral {text : List Char} (h : text.all neutral = true) (following : List Char) :
    endsOpen false (text ++ following) = endsOpen false following := by
  induction text with
  | nil => rfl
  | cons c rest ih =>
    simp only [List.all_cons, Bool.and_eq_true, neutral, decide_eq_true_eq] at h
    rw [List.cons_append, endsOpen]
    simp [h.1, ih h.2]

theorem endsOpen_quote (rest : List Char) :
    endsOpen false ('"' :: rest) =
      if stringLength (rest ++ [' ']) = stringLength rest then
        endsOpen false (rest.drop (stringLength rest))
      else true := by
  rw [endsOpen, if_neg (by simp), if_neg (by decide), if_pos rfl]

/-- Ignored characters lead into a comment or out of it. They never lead into a string, since a
quote is not ignored outside of a comment. -/
theorem endsOpen_gap {inComment state : Bool} {gap : List Char}
    (h : gapState inComment gap = some state) (following : List Char) :
    endsOpen inComment (gap ++ following) = endsOpen state following := by
  induction gap generalizing inComment with
  | nil =>
    cases h
    rfl
  | cons c rest ih =>
    rw [gapState] at h
    rw [List.cons_append, endsOpen]
    split_ifs at h with hcomment hhash hignored
    · rw [if_pos hcomment]
      exact ih h
    · rw [if_neg hcomment, if_pos hhash]
      exact ih h
    · -- No string begins with an ignored character
      have hquote : c ≠ '"' := fun heq => by
        rw [heq] at hignored
        exact absurd hignored (by decide)
      rw [if_neg hcomment, if_neg hhash, if_neg hquote]
      exact ih h

theorem neutral_of_beginsLexeme {c : Char} (h : beginsLexeme c = true) (hquote : c ≠ '"') :
    neutral c = true := by
  simp only [beginsLexeme, Bool.and_eq_true, Bool.not_eq_true', decide_eq_false_iff_not] at h
  simp [neutral, h.1, hquote]

private theorem neutral_of_isNamePart {text : List Char} (h : text.all isNamePart = true) :
    text.all neutral = true := by
  rw [List.all_eq_true] at h ⊢
  intro c hc
  obtain ⟨hbegins, -, hquote⟩ := beginsLexeme_of_part (.inl (h c hc))
  exact neutral_of_beginsLexeme hbegins hquote

private theorem neutral_of_isNumberPart {text : List Char} (h : text.all isNumberPart = true) :
    text.all neutral = true := by
  rw [List.all_eq_true] at h ⊢
  intro c hc
  obtain ⟨hbegins, -, hquote⟩ := beginsLexeme_of_part (.inr (h c hc))
  exact neutral_of_beginsLexeme hbegins hquote

/-- A lexeme other than a string does not matter: it has no quotes and no hash sign, so it leads
neither into a string nor into a comment. -/
theorem Lexeme.Whole.neutral {l : Lexeme} (h : l.Whole) (hkind : l.kind ≠ .stringValue) :
    l.text.all neutral = true := by
  obtain ⟨c, more, htext, hshape⟩ := h
  rw [htext]
  -- No quote and no number sign occurs in what these kinds of lexeme are made of
  cases hl : l.kind with
  | ellipsis =>
    rw [hl] at hshape
    obtain ⟨rfl, rfl⟩ := hshape
    decide
  | name =>
    rw [hl] at hshape
    exact neutral_of_isNamePart (by simp [isNamePart_of_isNameStart hshape.1, hshape.2])
  | other =>
    rw [hl] at hshape
    exact neutral_of_isNumberPart (by simp [isNumberPart_of_isNumberStart hshape.1, hshape.2])
  | punctuator mark =>
    rw [hl] at hshape
    obtain ⟨rfl, rfl, hbegins, hquote, -⟩ := hshape
    simp [neutral_of_beginsLexeme hbegins hquote]
  | stringValue => exact absurd hl hkind
  | «variable» =>
    rw [hl] at hshape
    obtain ⟨rfl, -, hmore⟩ := hshape
    rw [List.all_cons, neutral_of_isNamePart hmore]
    decide

/-- A string that has an end leads out of itself, and one that has none does not. -/
private theorem endsOpen_string {l : Lexeme} {following : List Char} (h : l.Cuts following)
    (hkind : l.kind = .stringValue) :
    endsOpen false (l.text ++ following) = true ↔
      ¬l.Whole ∨ endsOpen false following = true := by
  obtain ⟨c, more, htext, -, hclass⟩ := id h
  -- The string is as long as it is scanned, and begins with a quote
  have hquote : c = '"' ∧ stringLength (more ++ following) = more.length := by
    unfold classify at hclass
    rw [hkind] at hclass
    split_ifs at hclass with hdots hvariable hquote <;>
      simp only [Prod.mk.injEq, reduceCtorEq, false_and, true_and] at hclass
    exact ⟨hquote, hclass⟩
  obtain ⟨rfl, hlength⟩ := hquote
  have hopen : l.Whole ↔
      stringLength (more ++ following ++ [' ']) = stringLength (more ++ following) := by
    rw [hlength]
    constructor
    · rintro ⟨d, rest, hother, hshape⟩
      obtain ⟨-, rfl⟩ := List.cons.inj (htext.symm.trans hother)
      rw [hkind] at hshape
      rw [List.append_assoc]
      refine stringLength_append (by simp) hshape.2 fun htwo hthree => ?_
      -- A third quote would have run into the two
      have hclear := h.clear
      cases following with
      | nil => simp at hthree
      | cons d rest =>
        simp only [List.cons_append, List.head?_cons, Option.some.injEq] at hthree
        simp [Lexeme.clearOf, hkind, htext, htwo, hthree] at hclear
    · intro hspace
      cases following with
      | nil =>
        refine ⟨'"', more, htext, ?_⟩
        rw [hkind]
        exact ⟨rfl, by simpa using hspace⟩
      | cons d rest => exact h.whole (.inl (by simp))
  rw [htext, List.cons_append, endsOpen_quote]
  have hdrop : (more ++ following).drop (stringLength (more ++ following)) = following := by
    rw [hlength, List.drop_left]
  rw [hdrop]
  by_cases hwhole : l.Whole
  · rw [if_pos (hopen.1 hwhole)]
    simp [hwhole]
  · rw [if_neg fun heq => hwhole (hopen.2 heq)]
    simp [hwhole]

/-- Lexemes other than strings do not matter, and what stands between them does not either. -/
theorem endsOpen_plain {row : List Lexeme}
    (h : ∀ l ∈ row, IsGap l.gap ∧ l.Whole ∧ l.kind ≠ .stringValue) (following : List Char) :
    endsOpen false (Lexeme.charsOf row ++ following) = endsOpen false following := by
  induction row with
  | nil => rfl
  | cons l rest ih =>
    obtain ⟨⟨hgap, hwhole, hkind⟩, hrest⟩ := List.forall_mem_cons.1 h
    rw [Lexeme.charsOf_cons, List.append_assoc, List.append_assoc, endsOpen_gap hgap,
      endsOpen_neutral (hwhole.neutral hkind), ih hrest]

/-- A spelled row leads into a string exactly if one of its strings has no end. Only the last lexeme
can be such a string, for nothing is read behind it. -/
theorem endsOpen_row {row : List Lexeme} {trailer : List Char} (h : Lexeme.Spells row trailer)
    (htrailer : (gapState false trailer).isSome) :
    endsOpen false (Lexeme.charsOf row ++ trailer) = true ↔ ∃ l ∈ row, ¬l.Whole := by
  induction row with
  | nil =>
    -- Behind the lexemes nothing but ignored characters stands
    obtain ⟨state, hstate⟩ := Option.isSome_iff_exists.1 htrailer
    have hend := endsOpen_gap hstate []
    rw [List.append_nil, endsOpen] at hend
    simp [hend]
  | cons l rest ih =>
    obtain ⟨hgap, hcuts, hrest⟩ := h
    have hcons : (∃ m ∈ l :: rest, ¬m.Whole) ↔ ¬l.Whole ∨ ∃ m ∈ rest, ¬m.Whole := by simp
    rw [Lexeme.charsOf_cons, List.append_assoc, List.append_assoc, endsOpen_gap hgap, hcons,
      ← ih hrest]
    by_cases hkind : l.kind = .stringValue
    · exact endsOpen_string hcuts hkind
    · have hwhole := hcuts.whole (.inr hkind)
      rw [endsOpen_neutral (hwhole.neutral hkind)]
      simp [hwhole]

/-- **Whether a text is left open is told character by character.** No lexemes need to be found for
it, so it can be decided of a text whose names and marks are still going to change. -/
theorem leftOpen_iff_endsOpen (text : String) :
    LeftOpen text ↔ endsOpen false text.toList = true := by
  obtain ⟨hspells, htrailer⟩ := spells_scan text.toList
  have hchars : Lexeme.charsOf (scan text.toList).lexemes ++ (scan text.toList).trailer =
    text.toList := chars_scan _
  have hrow := endsOpen_row hspells htrailer
  rw [hchars] at hrow
  exact hrow.symm

/-- A text whose last lexeme is no string is not left open. -/
theorem not_leftOpen_of_getLast? {text : String}
    (h : ∀ l ∈ (scanText text).lexemes.getLast?, l.kind ≠ .stringValue) : ¬LeftOpen text := by
  rintro ⟨l, hl, hopen⟩
  exact hopen ((spells_scan text.toList).1.whole_of_last h l hl)

/-- Texts with the same strings are left open alike. -/
theorem leftOpen_congr {text other : String}
    (h : (scanText text).lexemes.filter (fun l => l.kind = .stringValue) =
      (scanText other).lexemes.filter fun l => l.kind = .stringValue) :
    LeftOpen text ↔ LeftOpen other := by
  have hstrings : ∀ text : String, LeftOpen text ↔
      ∃ l ∈ (scanText text).lexemes.filter (fun l => l.kind = .stringValue), ¬l.Whole := by
    intro text
    constructor
    · rintro ⟨l, hl, hopen⟩
      refine ⟨l, List.mem_filter.2 ⟨hl, ?_⟩, hopen⟩
      rw [decide_eq_true_eq]
      -- Nothing but a string is ever left open
      by_contra hkind
      exact hopen ((spells_scan text.toList).1.whole_of_kind l hl hkind)
    · rintro ⟨l, hl, hopen⟩
      exact ⟨l, (List.mem_filter.1 hl).1, hopen⟩
  rw [hstrings, h, ← hstrings]

/-! ## §2 Texts joined by line feeds -/

/-- Behind a text that is not left open, and a line feed, the next text is read by itself. The line
feed ends a comment and separates two names; a block string is all that could reach over it. -/
theorem tokens_line {text : String} (h : ¬LeftOpen text) (next : List Char) :
    (scan (text.toList ++ '\n' :: next)).lexemes.map Lexeme.token =
      tokensOf text ++ (scan next).lexemes.map Lexeme.token := by
  obtain ⟨hspells, htrailer⟩ := spells_scan text.toList
  have hchars : Lexeme.charsOf (scan text.toList).lexemes ++ (scan text.toList).trailer =
    text.toList := chars_scan _
  have hwhole : ∀ l ∈ (scan text.toList).lexemes, l.Whole := by
    simpa [LeftOpen, scanText] using h
  unfold tokensOf scanText
  generalize scan text.toList = s at hspells htrailer hchars hwhole ⊢
  obtain ⟨row, trailer⟩ := s
  -- The trailer may end in a comment; the line feed ends it, so both together are a gap
  have hgap : IsGap (trailer ++ ['\n']) := isGap_line htrailer
  have hseparates : (trailer ++ ['\n'] ++ next).head?.all Lexeme.separates = true := by
    rw [List.append_assoc]
    cases trailer with
    | nil => rfl
    | cons c rest => simpa using Lexeme.separates_of_gapState htrailer
  have htext : text.toList ++ '\n' :: next =
      Lexeme.charsOf row ++ (trailer ++ ['\n'] ++ next) := by
    rw [← hchars]
    simp
  rw [htext, scan_of_spells (hspells.before_of_whole hwhole hseparates), scan_gap_append hgap,
    List.map_append, tokens_indent]

/-- Helper: a text that is left open ends with the string that has no end. -/
private theorem exists_open_string {text : String} (h : LeftOpen text) :
    ∃ (front : List Lexeme) (l : Lexeme), text.toList = Lexeme.charsOf front ++ (l.gap ++ l.text) ∧
      tokensOf text = front.map Lexeme.token ++ [l.token] ∧
      Lexeme.Spells front (l.gap ++ l.text) ∧ IsGap l.gap ∧ l.Cuts [] ∧ ¬l.Whole := by
  obtain ⟨hspells, -⟩ := spells_scan text.toList
  have hchars : Lexeme.charsOf (scan text.toList).lexemes ++ (scan text.toList).trailer =
    text.toList := chars_scan _
  obtain ⟨l, hl, hopen⟩ := h
  unfold scanText at hl
  unfold tokensOf scanText
  generalize scan text.toList = s at hspells hchars hl ⊢
  obtain ⟨row, trailer⟩ := s
  obtain ⟨front, behind, rfl⟩ := List.append_of_mem hl
  dsimp only at hspells hchars
  obtain ⟨hfront, hgap, hcuts, hbehind⟩ := Lexeme.spells_append.1 hspells
  -- Anything behind the string would have ended it
  have hnil : Lexeme.charsOf behind ++ trailer = [] := by
    by_contra hmore
    exact hopen (hcuts.whole (.inl hmore))
  obtain ⟨hbehindNil, rfl⟩ := List.append_eq_nil_iff.1 hnil
  have hnone : behind = [] := by
    cases behind with
    | nil => rfl
    | cons m rest =>
      obtain ⟨c, more, htext, -⟩ := hbehind.2.1
      simp [htext] at hbehindNil
  subst hnone
  refine ⟨front, l, ?_, by simp, by simpa using hfront, hgap, by simpa using hcuts, hopen⟩
  rw [← hchars]
  simp

/-- Behind a text that is left open, no text is read by itself: the string takes the line feed in.
Were the tokens of the first text found again, the same string would have come to its end. -/
theorem tokens_line_of_leftOpen {text : String} (h : LeftOpen text) (next : List Char)
    (others : List Token) :
    (scan (text.toList ++ '\n' :: next)).lexemes.map Lexeme.token ≠ tokensOf text ++ others := by
  obtain ⟨front, l, htext, htokens, hfront, hgap, ⟨c, more, hl, hbegins, -⟩, hopen⟩ :=
    exists_open_string h
  intro heq
  have hstands : Lexeme.Stands (l.gap ++ l.text) (l.gap ++ l.text ++ '\n' :: next) := by
    have happend := @Lexeme.stands_append (l.gap ++ l.text) [] ('\n' :: next) (by simp [hl])
      (by simp)
    simpa using happend
  rw [htext, List.append_assoc (Lexeme.charsOf front), scan_of_spells (hfront.stands hstands),
    htokens, List.map_append, List.append_assoc (front.map Lexeme.token),
    List.append_cancel_left_eq] at heq
  -- So the same string is read again, although more follows it
  obtain ⟨hspells, -⟩ := spells_scan (l.gap ++ l.text ++ '\n' :: next)
  have hchars : (scan (l.gap ++ l.text ++ '\n' :: next)).chars = _ := chars_scan _
  generalize scan (l.gap ++ l.text ++ '\n' :: next) = s at hspells hchars heq
  obtain ⟨row, trailer⟩ := s
  cases row with
  | nil => simp at heq
  | cons m rest =>
    simp only [List.map_cons, List.cons_append, List.nil_append, List.cons.injEq, Lexeme.token,
      Prod.mk.injEq] at heq
    obtain ⟨⟨hkind, hsame⟩, -⟩ := heq
    have hmore : m.gap ++ (m.text ++ (Lexeme.charsOf rest ++ trailer)) =
        l.gap ++ (l.text ++ '\n' :: next) := by
      simpa [Scan.chars] using hchars
    -- Both gaps are measured in front of the same quote
    have hlength : m.gap.length = l.gap.length := by
      have hm := hspells.1.gapLength_append_cons hbegins (more ++ (Lexeme.charsOf rest ++ trailer))
      have hold := hgap.gapLength_append_cons hbegins (more ++ '\n' :: next)
      rw [hsame, hl] at hmore
      simp only [List.cons_append] at hmore
      rw [← hm, ← hold, hmore]
    obtain ⟨-, hbehind⟩ := List.append_inj hmore hlength
    rw [hsame, List.append_cancel_left_eq] at hbehind
    obtain ⟨d, other, hm, hshape⟩ := hspells.2.1.whole (.inl (by simp [hbehind]))
    exact hopen ⟨d, other, hsame ▸ hm, hkind ▸ hshape⟩

/-- **The tokens of joined texts are those of each exactly if no text but the last is left open.**
This is the one condition under which definitions can be put below one another without looking at
what they say. -/
theorem tokens_joined_iff (texts : List String) :
    tokensOf ("\n".intercalate texts) = texts.flatMap tokensOf ↔
      ∀ text ∈ texts.dropLast, ¬LeftOpen text := by
  induction texts with
  | nil =>
    have hnone : scan [] = ⟨[], []⟩ := scan_of_gapState rfl
    simp [tokensOf, scanText, hnone]
  | cons text rest ih =>
    cases rest with
    | nil => simp
    | cons next more =>
      -- The induction takes the first text and its line feed off, whether or not the text is left
      -- open
      have hjoined : ("\n".intercalate (text :: next :: more)).toList =
          text.toList ++ '\n' :: ("\n".intercalate (next :: more)).toList := by
        simp [String.intercalate_cons_cons]
      have htokens : tokensOf ("\n".intercalate (text :: next :: more)) =
          (scan (text.toList ++ '\n' :: ("\n".intercalate (next :: more)).toList)).lexemes.map
            Lexeme.token := by
        rw [← hjoined]
        rfl
      rw [htokens, List.flatMap_cons, List.dropLast_cons_of_ne_nil (by simp), List.forall_mem_cons]
      by_cases hopen : LeftOpen text
      · simp [hopen, tokens_line_of_leftOpen hopen]
      · rw [tokens_line hopen, List.append_cancel_left_eq]
        simp only [hopen, not_false_eq_true, true_and]
        exact ih

end QueryWeave
