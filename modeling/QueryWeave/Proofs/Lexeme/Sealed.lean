import QueryWeave.Proofs.Lexeme.Written

/-!
# Sealed Texts

Texts that are scanned the same whatever follows them: the lexemes of what follows come behind their
own, and what they leave behind their last lexeme goes into the gap of the first lexeme that
follows. A text that ends with a line feed is sealed, unless it ends inside a block string, for a
line feed ends comments and strings, and nothing else reaches across it.

- `Scan.append`: one scan behind another.
- `Sealed.append`, `Sealed.flatten`: sealed texts in a row.
- `sealed_of_line`: texts that end with a line feed.
-/

namespace QueryWeave

/-! ## §1 Scans in a row -/

/-- A scan with another behind it. -/
def Scan.append (s t : Scan) : Scan :=
  ⟨s.lexemes ++ (t.indent s.trailer).lexemes, (t.indent s.trailer).trailer⟩

@[simp] theorem Scan.tokens_append (s t : Scan) :
    (s.append t).lexemes.map Lexeme.token =
      s.lexemes.map Lexeme.token ++ t.lexemes.map Lexeme.token := by
  simp [Scan.append]

theorem Scan.append_assoc (s t u : Scan) : (s.append t).append u = s.append (t.append u) := by
  obtain ⟨first, firstTrailer⟩ := s
  obtain ⟨second, secondTrailer⟩ := t
  obtain ⟨third, thirdTrailer⟩ := u
  cases second <;> cases third <;> simp [Scan.append, Scan.indent]

/-! ## §2 Sealed texts -/

/-- Whether a text is scanned the same whatever follows it. Sealed texts can be put in a row without
any regard for one another. -/
def Sealed (text : List Char) : Prop :=
  ∀ following, scan (text ++ following) = (scan text).append (scan following)

theorem scan_nil : scan [] = ⟨[], []⟩ :=
  scan_of_gapState rfl

theorem sealed_nil : Sealed [] := by
  intro following
  rw [List.nil_append, scan_nil]
  generalize scan following = s
  obtain ⟨row, trailer⟩ := s
  cases row <;> rfl

theorem Sealed.append {first second : List Char} (hfirst : Sealed first) (hsecond : Sealed second) :
    Sealed (first ++ second) := by
  intro following
  rw [List.append_assoc, hfirst, hsecond, hfirst second, Scan.append_assoc]

theorem Sealed.flatten {texts : List (List Char)} (h : ∀ text ∈ texts, Sealed text) :
    Sealed texts.flatten := by
  induction texts with
  | nil => exact sealed_nil
  | cons text rest ih =>
    rw [List.flatten_cons]
    exact (h text List.mem_cons_self).append (ih fun other hother =>
      h other (List.mem_cons_of_mem _ hother))

/-- The tokens of sealed texts in a row are the tokens of each. -/
theorem tokens_flatten {texts : List (List Char)} (h : ∀ text ∈ texts, Sealed text) :
    (scan texts.flatten).lexemes.map Lexeme.token =
      texts.flatMap fun text => (scan text).lexemes.map Lexeme.token := by
  induction texts with
  | nil => simp [scan_nil]
  | cons text rest ih =>
    rw [List.flatten_cons, h text List.mem_cons_self, Scan.tokens_append,
      ih fun other hother => h other (List.mem_cons_of_mem _ hother)]
    rfl

theorem sealed_of_isGap {gap : List Char} (h : IsGap gap) : Sealed gap := by
  intro following
  rw [scan_gap_append h, scan_of_gapState h.isSome]
  rfl

/-- Helper: a text is sealed if its row is spelled whatever follows. -/
private theorem sealed_of_spells {text : List Char} (hgap : IsGap (scan text).trailer)
    (h : ∀ following,
      Lexeme.Spells (scan text).lexemes ((scan text).trailer ++ following)) : Sealed text := by
  intro following
  have hscan := scan_of_spells (h following)
  have hchars : Lexeme.charsOf (scan text).lexemes ++ (scan text).trailer = text := chars_scan text
  rw [scan_gap_append hgap, ← List.append_assoc, hchars] at hscan
  exact hscan

/-! ## §3 Lines -/

/-- A whole lexeme that ends with a line feed is a string that the line feed broke off, and what
follows it does not matter. -/
theorem Lexeme.Whole.clearOf_line {l : Lexeme} (h : l.Whole) (hline : l.text.getLast? = some '\n')
    (following : List Char) : l.clearOf following = true ∧ 2 ≤ l.text.length := by
  obtain ⟨c, more, htext, hshape⟩ := h
  have hpart : isNamePart '\n' = false ∧ isNumberPart '\n' = false := by decide
  have hmem : '\n' ∈ c :: more := by
    rw [← htext]
    exact List.mem_of_getLast? hline
  -- Names and numbers hold no line feed, and no mark is one
  have hnot : ∀ p : Char → Bool, p '\n' = false → p c = true → more.all p = true → False := by
    intro p hp hc hmore
    rcases List.mem_cons.1 hmem with heq | hin
    · rw [← heq, hp] at hc
      cases hc
    · rw [List.all_eq_true.1 hmore _ hin] at hp
      cases hp
  cases hkind : l.kind with
  | ellipsis =>
    rw [hkind] at hshape
    obtain ⟨rfl, rfl⟩ := hshape
    exact absurd hmem (by decide)
  | name =>
    rw [hkind] at hshape
    exact (hnot isNamePart hpart.1 (isNamePart_of_isNameStart hshape.1) hshape.2).elim
  | other =>
    rw [hkind] at hshape
    exact (hnot isNumberPart hpart.2 (isNumberPart_of_isNumberStart hshape.1) hshape.2).elim
  | punctuator mark =>
    rw [hkind] at hshape
    obtain ⟨rfl, rfl, hbegins, -⟩ := hshape
    rw [← List.mem_singleton.1 hmem] at hbegins
    exact absurd hbegins (by decide)
  | stringValue =>
    rw [hkind] at hshape
    obtain ⟨rfl, -⟩ := hshape
    have hmore : more ≠ [] := by
      rintro rfl
      exact absurd hmem (by decide)
    constructor
    · -- Two quotes alone could become three, but this text ends with the line feed
      have htwo : l.text ≠ ['"', '"'] := fun heq => by simp [heq] at hline
      simp [clearOf, hkind, htwo]
    · rw [htext, List.length_cons]
      have hpos := List.length_pos_iff.2 hmore
      omega
  | «variable» =>
    rw [hkind] at hshape
    obtain ⟨rfl, -, hmore⟩ := hshape
    rcases List.mem_cons.1 hmem with heq | hin
    · exact absurd heq (by decide)
    · rw [List.all_eq_true.1 hmore _ hin] at hpart
      exact absurd hpart.1 (by decide)

/-- A text that ends with a line feed is sealed, if its strings are closed or broken off. The line
feed either stands in the trailer, where it ends a comment if there is one, or it has broken off a
string in quotes, which is then the last lexeme. -/
theorem sealed_of_line {text : List Char} (hline : text.getLast? = some '\n')
    (hwhole : ∀ l ∈ (scan text).lexemes, l.Whole) (hgap : IsGap (scan text).trailer) :
    Sealed text := by
  apply sealed_of_spells hgap
  intro following
  obtain ⟨hspells, -⟩ := spells_scan text
  have hchars : Lexeme.charsOf (scan text).lexemes ++ (scan text).trailer = text := chars_scan text
  generalize scan text = s at hwhole hgap hspells hchars
  obtain ⟨row, trailer⟩ := s
  cases trailer with
  | cons c rest =>
    -- The trailer is ignored, and separates
    have hseparates := Lexeme.separates_of_gapState hgap.isSome
    exact hspells.before_of_whole hwhole (by simpa using hseparates)
  | nil =>
    rcases List.eq_nil_or_concat row with rfl | ⟨front, l, rfl⟩
    · trivial
    -- The line feed belongs to the last lexeme, which lets anything follow
    · simp only [List.concat_eq_append] at *
      obtain ⟨hfront, hl, hcuts, -⟩ := Lexeme.spells_append.1 hspells
      have hlWhole := hwhole l (by simp)
      have hsplit : text = (Lexeme.charsOf front ++ l.gap) ++ l.text := by
        rw [← hchars]
        simp
      have hlast : l.text.getLast? = some '\n' := by
        obtain ⟨c, more, htext, -⟩ := hlWhole
        rw [hsplit, List.getLast?_append, htext] at hline
        rw [htext]
        simpa using hline
      obtain ⟨hclear, hlong⟩ := hlWhole.clearOf_line hlast following
      apply Lexeme.spells_append.2
      refine ⟨hfront.stands ?_, hl, hlWhole.cuts hclear, trivial⟩
      -- The string is two characters long, so the front does not look beyond it
      apply Lexeme.stands_of_two
      simp only [Lexeme.charsOf_cons, Lexeme.charsOf_nil, List.append_nil, List.length_append]
      omega

end QueryWeave
