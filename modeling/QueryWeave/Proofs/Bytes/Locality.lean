import QueryWeave.Proofs.Bytes.Tiling

/-!
# Tokens of Slices

Where a text may be cut without a change of its tokens: wherever a token begins or ends. Behind the
cut, no lexeme is affected by what stands in front of it; in front of the cut, only a few characters
of what follows are ever looked at, and only to tell whether a lexeme goes on. Two texts may be put
together where the first one ends with a line feed between its tokens.

- `splits_of_spells`: a text is cut behind a row of lexemes and a gap.
- `localityLaws`: the cuts of a text, its slices, and what may be put behind it.
-/

namespace QueryWeave.Bytes

/-! ## §1 Tokens further back -/

/-- A token with more text in front of it. -/
def Token.shift (distance : Nat) (t : Token) : Token :=
  ⟨t.kind, t.span.start + distance, t.span.stop + distance⟩

theorem tokensOf_shift (offset distance : Nat) (row : List Lexeme) :
    tokensOf (offset + distance) row = (tokensOf offset row).map (Token.shift distance) := by
  induction row generalizing offset with
  | nil => rfl
  | cons l more ih =>
    have hspan : l.spanAt (offset + distance) =
        ⟨(l.spanAt offset).start + distance, (l.spanAt offset).stop + distance⟩ := by
      simp only [Lexeme.spanAt, Span.mk.injEq]
      omega
    rw [tokensOf_cons, hspan, ih]
    rfl

theorem tokensOf_indent (offset : Nat) (gap : List Char) (s : Scan) :
    tokensOf offset (s.indent gap).lexemes = tokensOf (offset + byteLength gap) s.lexemes := by
  obtain ⟨row, trailer⟩ := s
  cases row with
  | nil => rfl
  | cons l more => simp [Scan.indent, Lexeme.spanAt, Nat.add_assoc]

/-- A token of a row is one of its lexemes. The row is cut in front of the lexeme, and the tokens in
front of the cut are those of the row in front. -/
theorem split_of_tokensOf {offset : Nat} {row : List Lexeme} {front back : List Token} {t : Token}
    (h : tokensOf offset row = front ++ t :: back) :
    ∃ first l rest, row = first ++ l :: rest ∧ tokensOf offset first = front ∧
      t = ⟨l.kind, l.spanAt (offset + byteLength (Lexeme.charsOf first))⟩ := by
  induction front generalizing offset row with
  | nil =>
    cases row with
    | nil => cases h
    | cons l rest =>
      rw [tokensOf_cons] at h
      exact ⟨[], l, rest, rfl, rfl, (List.cons.inj h).1.symm⟩
  | cons u front ih =>
    cases row with
    | nil => cases h
    | cons m more =>
      rw [tokensOf_cons, List.cons_append] at h
      -- The token in front is that of the first lexeme; the others go on behind it
      obtain ⟨rfl, htail⟩ := List.cons.inj h
      obtain ⟨first, l, rest, rfl, rfl, rfl⟩ := ih htail
      refine ⟨m :: first, l, rest, rfl, rfl, ?_⟩
      rw [Lexeme.stop_spanAt]
      simp [Lexeme.chars, Nat.add_assoc]

/-! ## §2 Cuts

A text can be cut where the scanner of the whole and the scanner of the front agree. `Splits` says
so of a cut, and it holds in front of every token and behind it. -/

/-- Whether a text that is cut in two has the tokens of its two parts. Those of the second part
stand as much further back as the first part is long. -/
def Splits (front behind : List Char) : Prop :=
  tokenize (front ++ behind) =
    tokenize front ++ (tokenize behind).map (Token.shift (byteLength front))

/-- Behind a row of lexemes and a gap, a text is cut, if the row does not run into what follows. -/
theorem splits_of_spells {row : List Lexeme} {gap behind : List Char} (hgap : IsGap gap)
    (h : Lexeme.Spells row (gap ++ behind)) :
    tokenize (Lexeme.charsOf row ++ gap) = tokensOf 0 row ∧
      Splits (Lexeme.charsOf row ++ gap) behind := by
  -- Nothing runs into the gap, and nothing into the end of the text
  have hrow : Lexeme.Spells row gap := by
    by_cases hnil : gap ++ behind = []
    · obtain ⟨rfl, rfl⟩ := List.append_eq_nil_iff.1 hnil
      exact h
    · exact h.before hnil (Lexeme.separates_of_gapState hgap.isSome)
  have hfront : tokenize (Lexeme.charsOf row ++ gap) = tokensOf 0 row := by
    rw [tokenize, scan_charsOf hrow hgap.isSome]
  refine ⟨hfront, ?_⟩
  unfold Splits
  rw [hfront, List.append_assoc, tokenize, scan_of_spells h, tokensOf_append, scan_gap_append hgap,
    tokensOf_indent, Nat.add_assoc, ← byteLength_append, tokensOf_shift]
  rfl

/-- A text is cut in front of each of its tokens, and behind each of them. At both cuts the tokens
in front are read as they are in the whole text. -/
theorem exists_splits {source : List Char} {front back : List Token} {t : Token}
    (h : tokenize source = front ++ t :: back) :
    (∃ before rest, before ++ rest = source ∧ byteLength before = t.span.start ∧
      tokenize before = front ∧ Splits before rest) ∧
    ∃ before rest, before ++ rest = source ∧ byteLength before = t.span.stop ∧
      tokenize before = front ++ [t] ∧ Splits before rest := by
  obtain ⟨first, l, rest, hrow, rfl, rfl⟩ := split_of_tokensOf h
  obtain ⟨hspells, -⟩ := spells_scan source
  have hchars : Lexeme.charsOf (scan source).lexemes ++ (scan source).trailer = source :=
    chars_scan source
  rw [hrow] at hspells hchars
  obtain ⟨hfirst, hgap, hcuts, hrest⟩ := Lexeme.spells_append.1 hspells
  constructor
  · -- In front of the token, its gap belongs to the first part
    have hbefore : Lexeme.Spells first
        (l.gap ++ (l.text ++ (Lexeme.charsOf rest ++ (scan source).trailer))) := by
      simpa using hfirst
    obtain ⟨htokens, hsplits⟩ := splits_of_spells hgap hbefore
    refine ⟨_, _, ?_, ?_, htokens, hsplits⟩
    · simpa using hchars
    · simp [Lexeme.spanAt]
  · -- Behind the token, there is no gap to cut through
    have hbefore : Lexeme.Spells (first ++ [l])
        ([] ++ (Lexeme.charsOf rest ++ (scan source).trailer)) :=
      Lexeme.spells_append.2 ⟨by simpa using hfirst, hgap, by simpa using hcuts, trivial⟩
    obtain ⟨htokens, hsplits⟩ := splits_of_spells isGap_nil hbefore
    refine ⟨_, _, ?_, ?_, ?_, hsplits⟩
    · simpa using hchars
    · simp [Lexeme.spanAt, Nat.add_assoc]
    · rw [htokens, tokensOf_append]
      simp

/-! ## §3 Slices -/

/-- Whether a token of a text begins or ends at an offset. -/
def IsTokenBoundary (source : List Char) (offset : Nat) : Prop :=
  ∃ t ∈ tokenize source, t.span.start = offset ∨ t.span.stop = offset

theorem tiles_tokenize (source : List Char) : Tiles source 0 (tokenize source) :=
  (tiles_iff (after?_zero source)).2 rfl

@[simp] theorem tokenize_nil : tokenize [] = [] := by
  rw [tokenize, scan_of_gapState rfl]
  rfl

/-- The tokens of a text are not empty, and stand in it. -/
theorem bounds_of_mem_tokenize {source : List Char} {t : Token} (h : t ∈ tokenize source) :
    t.span.start < t.span.stop ∧ t.span.stop ≤ byteLength source := by
  have ht := (tiles_tokenize source).grammatical t h
  obtain ⟨front, back, happend, hlength⟩ := ht.boundaries.2
  refine ⟨ht.nonempty, ?_⟩
  rw [← happend, byteLength_append]
  omega

section Splits

variable {front behind : List Char}

/-- The tokens of the first part are those that end in front of the cut. -/
theorem Splits.front_eq (h : Splits front behind) :
    tokenize front =
      (tokenize (front ++ behind)).filter fun t => t.span.stop ≤ byteLength front := by
  -- All tokens of the first part end in it, and none of the others does
  have hfront : (tokenize front).filter (fun t => t.span.stop ≤ byteLength front) =
      tokenize front := by
    refine List.filter_eq_self.2 fun t ht => ?_
    simpa using (bounds_of_mem_tokenize ht).2
  have hbehind : ((tokenize behind).map (Token.shift (byteLength front))).filter
      (fun t => t.span.stop ≤ byteLength front) = [] := by
    refine List.filter_eq_nil_iff.2 fun t ht => ?_
    obtain ⟨u, hu, rfl⟩ := List.mem_map.1 ht
    have hnonempty := (bounds_of_mem_tokenize hu).1
    have hlt : byteLength front < (u.shift (byteLength front)).span.stop := by
      simp only [Token.shift]
      omega
    simpa using hlt
  rw [h, List.filter_append, hfront, hbehind, List.append_nil]

/-- The tokens of the second part are those that begin behind the cut. -/
theorem Splits.behind_eq (h : Splits front behind) :
    (tokenize behind).map (Token.shift (byteLength front)) =
      (tokenize (front ++ behind)).filter fun t => byteLength front ≤ t.span.start := by
  -- No token of the first part begins behind the cut, and all of the others do
  have hfront : (tokenize front).filter (fun t => byteLength front ≤ t.span.start) = [] := by
    refine List.filter_eq_nil_iff.2 fun t ht => ?_
    have hbounds := bounds_of_mem_tokenize ht
    have hlt : t.span.start < byteLength front := by omega
    simpa using hlt
  have hbehind : ((tokenize behind).map (Token.shift (byteLength front))).filter
      (fun t => byteLength front ≤ t.span.start) =
        (tokenize behind).map (Token.shift (byteLength front)) := by
    refine List.filter_eq_self.2 fun t ht => ?_
    obtain ⟨u, -, rfl⟩ := List.mem_map.1 ht
    simp [Token.shift]
  rw [h, List.filter_append, hfront, hbehind, List.nil_append]

end Splits

/-- A text is cut where a token begins or ends. -/
theorem splits_of_isTokenBoundary {source : List Char} {offset : Nat}
    (h : IsTokenBoundary source offset) :
    ∃ before rest, before ++ rest = source ∧ byteLength before = offset ∧ Splits before rest := by
  obtain ⟨t, ht, hoffset⟩ := h
  obtain ⟨front, back, hsplit⟩ := List.append_of_mem ht
  obtain ⟨⟨before, rest, happend, hlength, -, hsplits⟩,
    before', rest', happend', hlength', -, hsplits'⟩ := exists_splits hsplit
  rcases hoffset with rfl | rfl
  · exact ⟨before, rest, happend, hlength, hsplits⟩
  · exact ⟨before', rest', happend', hlength', hsplits'⟩

/-- A boundary in front of a cut is one of the first part. -/
theorem IsTokenBoundary.of_splits {front behind : List Char} {offset : Nat}
    (h : IsTokenBoundary (front ++ behind) offset) (hsplits : Splits front behind)
    (hlt : offset < byteLength front) : IsTokenBoundary front offset := by
  obtain ⟨t, ht, hoffset⟩ := h
  rw [hsplits] at ht
  rcases List.mem_append.1 ht with ht | ht
  · exact ⟨t, ht, hoffset⟩
  · -- The other tokens begin behind the cut
    obtain ⟨u, -, rfl⟩ := List.mem_map.1 ht
    simp only [Token.shift] at hoffset
    omega

/-- Between two cuts, a text has the tokens that stand there. The part is scanned by itself, as
though nothing stood around it, and its tokens are moved to where it begins. -/
theorem slice_of_splits {source : List Char} {start stop : Nat}
    (hstart : IsTokenBoundary source start)
    (hstop : IsTokenBoundary source stop) (hle : start ≤ stop) :
    ∃ part, slice? source ⟨start, stop⟩ = some part ∧
      (tokenize part).map (Token.shift start) =
        (tokenize source).filter fun t => start ≤ t.span.start ∧ t.span.stop ≤ stop := by
  obtain ⟨before, rest, rfl, rfl, hsplits⟩ := splits_of_isTokenBoundary hstop
  -- What stands in front of the second cut is cut again
  obtain ⟨lead, part, rfl, rfl, hagain⟩ : ∃ lead part, lead ++ part = before ∧
      byteLength lead = start ∧ Splits lead part := by
    -- At the same offset, nothing stands between the two
    rcases Nat.lt_or_eq_of_le hle with hlt | rfl
    · exact splits_of_isTokenBoundary (hstart.of_splits hsplits hlt)
    · exact ⟨before, [], by simp, rfl, by simp [Splits]⟩
  refine ⟨part, ?_, ?_⟩
  · rw [byteLength_append, List.append_assoc]
    exact slice?_of_after? (after?_append lead (part ++ rest))
  · rw [hagain.behind_eq, hsplits.front_eq, List.filter_filter]
    simp only [Bool.decide_and]

/-! ## §4 Texts put together

Put behind each other, two texts have the tokens of both if nothing runs together at the seam. A
line feed is enough of a seam, unless a block string is still open. -/

/-- Ignored text that ends with a line feed leaves no comment open. -/
theorem isGap_of_line {gap : List Char} (h : (gapState false gap).isSome)
    (hline : gap.getLast? = some '\n') : IsGap gap := by
  obtain ⟨front, rfl⟩ := List.getLast?_eq_some_iff.1 hline
  rw [gapState_append] at h
  -- What stands in front of the line feed is ignored as well
  have hfront : (gapState false front).isSome := Option.isSome_of_isSome_bind h
  exact isGap_line hfront

/-- A line feed between the tokens at the end of a text belongs to what is ignored there. No token
reaches over it, so it can only be a blank, or the end of a comment. -/
theorem getLast?_trailer {source : List Char} (hline : source.getLast? = some '\n')
    (houtside : ∀ t ∈ tokenize source, ¬t.span.Holds (byteLength source - 1)) :
    (scan source).trailer.getLast? = some '\n' := by
  have hchars : Lexeme.charsOf (scan source).lexemes ++ (scan source).trailer = source :=
    chars_scan source
  -- If anything stands behind the last token, the text ends with it
  cases htrailer : (scan source).trailer with
  | cons c more =>
    rw [htrailer] at hchars
    rw [← hchars, List.getLast?_append] at hline
    simpa [List.getLast?_cons] using hline
  | nil =>
    -- The last token would hold the line feed
    exfalso
    rw [htrailer, List.append_nil] at hchars
    rcases List.eq_nil_or_concat (scan source).lexemes with hnil | ⟨first, l, hrow⟩
    · rw [hnil] at hchars
      rw [← hchars] at hline
      cases hline
    · rw [List.concat_eq_append] at hrow
      have hmem : ⟨l.kind, l.spanAt (byteLength (Lexeme.charsOf first))⟩ ∈ tokenize source := by
        rw [tokenize, hrow, tokensOf_append]
        simp
      have hstop : (l.spanAt (byteLength (Lexeme.charsOf first))).stop = byteLength source := by
        rw [← hchars, hrow, Lexeme.stop_spanAt]
        simp [Lexeme.chars]
      have hnonempty := (bounds_of_mem_tokenize hmem).1
      refine houtside _ hmem ⟨?_, ?_⟩ <;> dsimp only at hnonempty ⊢ <;> omega

/-- Behind a line feed between its tokens, a text is cut, whatever follows. -/
theorem splits_of_line {source : List Char} (hline : source.getLast? = some '\n')
    (houtside : ∀ t ∈ tokenize source, ¬t.span.Holds (byteLength source - 1))
    (following : List Char) : Splits source following := by
  obtain ⟨hspells, htrailer⟩ := spells_scan source
  have hlast := getLast?_trailer hline houtside
  have hmore : (scan source).trailer ≠ [] := by
    intro hnil
    rw [hnil] at hlast
    cases hlast
  -- The strings of the text are closed in front of what is ignored at its end
  have hseparates : ((scan source).trailer ++ following).head?.all Lexeme.separates = true := by
    rw [List.head?_append_of_ne_nil _ hmore]
    exact Lexeme.separates_of_gapState htrailer
  have hrow := hspells.before_of_whole (hspells.whole hmore) hseparates
  have hsplits := (splits_of_spells (isGap_of_line htrailer hlast) hrow).2
  have hchars : Lexeme.charsOf (scan source).lexemes ++ (scan source).trailer = source :=
    chars_scan source
  rwa [hchars] at hsplits

/-! ## §5 The locality laws -/

/-- How the tokens of the parts of a text go with those of the text. A text can be cut wherever a
token begins or ends: the rest from a token on, all in front of a token, the slice between two such
places and the inside of two brackets have the tokens they have in the text. At its end a text can
be continued if a line feed stands there that no token holds. -/
structure LocalityLaws (source : List Char) : Prop where
  /-- From where a token begins, a text has the rest of the tokens. -/
  later : ∀ front t back, tokenize source = front ++ t :: back →
    ∃ rest, after? source t.span.start = some rest ∧
      (tokenize rest).map (Token.shift t.span.start) = t :: back
  /-- In front of a token, a text has the tokens up to that one. -/
  earlier : ∀ front t back, tokenize source = front ++ t :: back →
    ∃ before, slice? source ⟨0, t.span.start⟩ = some before ∧ tokenize before = front
  /-- Wherever tokens begin or end, a slice has the tokens that stand in it. -/
  between : ∀ start stop, IsTokenBoundary source start → IsTokenBoundary source stop →
    start ≤ stop → ∃ part, slice? source ⟨start, stop⟩ = some part ∧
      (tokenize part).map (Token.shift start) =
        (tokenize source).filter fun t => start ≤ t.span.start ∧ t.span.stop ≤ stop
  /-- Between two brackets, say, the text has the tokens that stand between the two. -/
  inside : ∀ front opener tokens closer back,
    tokenize source = front ++ opener :: (tokens ++ closer :: back) →
    ∃ part, slice? source ⟨opener.span.stop, closer.span.start⟩ = some part ∧
      (tokenize part).map (Token.shift opener.span.stop) = tokens
  /-- Behind a line feed between the tokens, other text may follow. -/
  joined : source.getLast? = some '\n' →
    (∀ t ∈ tokenize source, ¬t.span.Holds (byteLength source - 1)) →
    ∀ following, tokenize (source ++ following) =
      tokenize source ++ (tokenize following).map (Token.shift (byteLength source))

/-- **The tokens of a text are local to it**: cutting it where tokens begin or end, or putting other
text behind a line, changes none of them. -/
theorem localityLaws (source : String) : LocalityLaws source.toList := by
  constructor
  case later =>
    intro front t back h
    obtain ⟨⟨before, rest, happend, hlength, htokens, hsplits⟩, -⟩ := exists_splits h
    refine ⟨rest, ?_, ?_⟩
    · rw [← happend, ← hlength]
      exact after?_append before rest
    · rw [Splits, happend, h, htokens, hlength] at hsplits
      exact (List.append_cancel_left hsplits).symm
  case earlier =>
    intro front t back h
    obtain ⟨⟨before, rest, happend, hlength, htokens, -⟩, -⟩ := exists_splits h
    refine ⟨before, ?_, htokens⟩
    have hslice := slice?_of_after? (after?_zero (before ++ rest))
    rwa [happend, hlength, Nat.zero_add] at hslice
  case between =>
    intro start stop hstart hstop hle
    exact slice_of_splits hstart hstop hle
  case inside =>
    intro front opener tokens closer back h
    rw [← List.cons_append, ← List.append_assoc] at h
    obtain ⟨⟨before, rest, happend, hlength, htokens, -⟩, -⟩ := exists_splits h
    -- What stands in front of the second token is cut behind the first one
    obtain ⟨-, lead, part, hlead, hstop, hfront, hsplits⟩ := exists_splits htokens
    refine ⟨part, ?_, ?_⟩
    · rw [← happend, ← hlead, ← hlength, ← hlead, ← hstop, byteLength_append, List.append_assoc]
      exact slice?_of_after? (after?_append lead (part ++ rest))
    · rw [Splits, hlead, htokens, hfront, hstop, List.append_cons] at hsplits
      exact (List.append_cancel_left hsplits).symm
  case joined =>
    intro hline houtside following
    exact splits_of_line hline houtside following

end QueryWeave.Bytes
