import QueryWeave.Proofs.Bytes.Lexer
import QueryWeave.Proofs.Spread

/-!
# Spreads by Offsets

Tokens are read by slicing the source at their spans. A row of lexemes is *read at* an offset of a
source if the source goes on there with the characters of the row. The texts of its lexemes, the
names of its variables and the paths of its spreads are then slices of the source between the
offsets of its tokens.

- `ReadAt`: the invariant of every walk along tokens.
- `findSpreads?_eq`: the spreads of a row are found where they stand.
-/

namespace QueryWeave.Bytes

/-! ## §1 Rows in a source -/

/-- A row of lexemes stands in a source from an offset on, with the text `behind` behind it. Every
walk along the tokens of a source carries this from one token to the next. -/
structure ReadAt (source : List Char) (offset : Nat) (row : List Lexeme) (behind : List Char) :
    Prop where
  rest : after? source offset = some (Lexeme.charsOf row ++ behind)
  spelled : Lexeme.Spells row behind

theorem readAt_scan (source : List Char) :
    ReadAt source 0 (scan source).lexemes (scan source).trailer := by
  refine ⟨?_, (spells_scan source).1⟩
  rw [after?_zero]
  exact congrArg some (chars_scan source).symm

namespace ReadAt

variable {source behind : List Char} {offset : Nat} {l : Lexeme} {rest first second : List Lexeme}

/-- A row is read on behind its first part. -/
theorem append (h : ReadAt source offset (first ++ second) behind) :
    ReadAt source offset first (Lexeme.charsOf second ++ behind) ∧
      ReadAt source (offset + byteLength (Lexeme.charsOf first)) second behind := by
  have hrest := h.rest
  have hspelled := Lexeme.spells_append.1 h.spelled
  rw [Lexeme.charsOf_append, List.append_assoc] at hrest
  exact ⟨⟨hrest, hspelled.1⟩, ⟨after?_add hrest, hspelled.2⟩⟩

/-- A row is read on behind its first lexeme. -/
theorem next (h : ReadAt source offset (l :: rest) behind) :
    ReadAt source (l.spanAt offset).stop rest behind := by
  rw [Lexeme.stop_spanAt]
  have hnext := (@append _ _ _ [l] rest h).2
  rwa [Lexeme.charsOf_cons, Lexeme.charsOf_nil, List.append_nil] at hnext

/-- Behind the gap of the first lexeme stands its text. -/
theorem text (h : ReadAt source offset (l :: rest) behind) :
    after? source (l.spanAt offset).start = some (l.text ++ (Lexeme.charsOf rest ++ behind)) := by
  have hrest := h.rest
  simp only [Lexeme.charsOf_cons, List.append_assoc] at hrest
  exact after?_add hrest

end ReadAt

/-! ## §2 Reading tokens -/

def Token.text? (source : List Char) (t : Token) : Option (List Char) :=
  slice? source t.span

/-- The name of a variable token, which begins one byte behind the token. -/
def Token.variableName? (source : List Char) (t : Token) : Option (List Char) :=
  slice? source ⟨t.span.start + 1, t.span.stop⟩

def Token.isMark (mark : Char) (t : Token) : Bool :=
  t.kind = .punctuator mark

section

variable {source behind : List Char} {offset : Nat} {l : Lexeme} {rest : List Lexeme}

theorem text?_eq (h : ReadAt source offset (l :: rest) behind) :
    Token.text? source ⟨l.kind, l.spanAt offset⟩ = some l.text :=
  slice?_of_after? h.text

theorem variableName?_eq (h : ReadAt source offset (l :: rest) behind)
    (hvariable : l.kind = .variable) :
    Token.variableName? source ⟨l.kind, l.spanAt offset⟩ = some (l.text.drop 1) := by
  -- A variable begins with its dollar sign, which is one byte
  obtain ⟨c, name, hname, hshape⟩ :=
    h.spelled.whole_of_kind l (List.mem_cons_self ..) (by simp [hvariable])
  rw [hvariable] at hshape
  obtain ⟨rfl, -⟩ := hshape
  have htext := h.text
  rw [hname] at htext
  have hstop : (l.spanAt offset).stop =
      (l.spanAt offset).start + '$'.utf8Size + byteLength name := by
    simp [Lexeme.spanAt, hname, byteLength, Nat.add_assoc]
  rw [Token.variableName?, hname, hstop]
  exact slice?_of_after? (after?_cons htext)

end

/-! ## §3 Spreads -/

/-- Whether a dot and a name follow an offset without a gap. -/
def adjacent (stop : Nat) (dot segment : Token) : Bool :=
  dot.isMark '.' && dot.span.start = stop && segment.kind = .name &&
    segment.span.start = dot.span.stop

/-- Where the touching segments end that follow a path up to an offset, and the tokens behind
them. -/
def pathEnd (stop : Nat) : List Token → Nat × List Token
  | dot :: segment :: rest =>
    if adjacent stop dot segment then pathEnd segment.span.stop rest
    else (stop, dot :: segment :: rest)
  | rest => (stop, rest)

theorem length_pathEnd_le (stop : Nat) (tokens : List Token) :
    (pathEnd stop tokens).2.length ≤ tokens.length := by
  fun_induction pathEnd stop tokens with
  | case1 stop dot segment rest hadjacent ih =>
    simp only [List.length_cons]
    omega
  | case2 => simp
  | case3 => simp

/-- The named spreads among the tokens of a source. The text of the name and that of the path are
sliced out of the source, so the search has no result if one of its offsets is not good. -/
def findSpreads? (source : List Char) : List Token → Option (List SpreadSite)
  | [] => some []
  | [_] => some []
  | token :: first :: rest =>
    if token.kind = .ellipsis && first.kind = .name then do
      let word ← first.text? source
      if word = ['o', 'n'] then findSpreads? source (first :: rest)
      else
        let path := pathEnd first.span.stop rest
        let text ← slice? source ⟨first.span.start, path.1⟩
        let later ← findSpreads? source path.2
        return ⟨String.ofList text, ⟨first.span.start, path.1⟩, ⟨token.span.start, path.1⟩⟩ ::
          later
    else findSpreads? source (first :: rest)
termination_by tokens => tokens.length
decreasing_by
  · simp
  · have hle := length_pathEnd_le first.span.stop rest
    simp only [List.length_cons]
    omega
  · simp

/-- A lexeme begins at an offset exactly if it touches what ends there. -/
theorem start_spanAt_iff {offset : Nat} {l : Lexeme} :
    (l.spanAt offset).start = offset ↔ l.touches = true := by
  simp [Lexeme.spanAt, Lexeme.touches, byteLength_eq_zero_iff]

theorem adjacent_eq (stop : Nat) (dot segment : Lexeme) :
    adjacent stop ⟨dot.kind, dot.spanAt stop⟩
        ⟨segment.kind, segment.spanAt (dot.spanAt stop).stop⟩ = continuesPath dot segment := by
  simp only [adjacent, continuesPath, Token.isMark, Lexeme.isMark, Lexeme.isName, start_spanAt_iff,
    Bool.decide_eq_true]

/-- The path ends behind the segments that belong to the spread. A dot or a name that does not touch
what is in front of it is left for the row behind. -/
theorem pathEnd_eq (stop : Nat) (row : List Lexeme) :
    let stop' := stop + byteLength (Lexeme.charsOf (Spread.segmentRow (takeSegments row).1))
    pathEnd stop (tokensOf stop row) = (stop', tokensOf stop' (takeSegments row).2) := by
  fun_induction takeSegments row generalizing stop with
  | case1 dot segment rest hcontinues segments after heq ih =>
    -- A segment that touches is passed over, and the path may go on behind it
    have hrest := ih (segment.spanAt (dot.spanAt stop).stop).stop
    rw [heq] at hrest
    rw [tokensOf_cons, tokensOf_cons, pathEnd, adjacent_eq, if_pos hcontinues]
    dsimp only at hrest ⊢
    rw [hrest, Lexeme.stop_spanAt, Lexeme.stop_spanAt]
    simp [Spread.segmentRow, Nat.add_assoc, Lexeme.chars]
  | case2 dot segment rest hcontinues =>
    rw [tokensOf_cons, tokensOf_cons, pathEnd, adjacent_eq, if_neg hcontinues]
    rfl
  -- Fewer than two lexemes hold no segment
  | case3 row hshort =>
    cases row with
    | nil => rfl
    | cons dot more =>
      cases more with
      | nil => rfl
      | cons segment rest => exact absurd rfl (hshort dot segment rest)

/-- A spread ends where its row ends. -/
theorem stop_siteAt (offset : Nat) (s : Spread) :
    (s.siteAt offset).span.stop = offset + byteLength (Lexeme.charsOf (Piece.spread s).row) := by
  simp [Spread.siteAt, Piece.row, Spread.row, Spread.pathText, Spread.pathRow, Lexeme.spanText,
    Lexeme.spanAt, Nat.add_assoc]

theorem path_siteAt (offset : Nat) (s : Spread) : (s.siteAt offset).path = s.path := rfl

/-- A spread ends where its path ends. -/
theorem stop_pathSpan (offset : Nat) (s : Spread) :
    (s.siteAt offset).pathSpan.stop = (s.siteAt offset).span.stop := rfl

/-- A path is a slice, and the row is read on behind it. Segments touch, so the slice holds nothing
but names and dots. -/
theorem ReadAt.path {source behind : List Char} {offset : Nat} {head : Lexeme} {rest : List Lexeme}
    (h : ReadAt source offset (head :: rest) behind) (dots : Lexeme) :
    let s : Spread := ⟨dots, head, (takeSegments rest).1⟩
    let stop := (head.spanAt offset).start + byteLength s.pathText
    pathEnd (head.spanAt offset).stop (tokensOf (head.spanAt offset).stop rest) =
        (stop, tokensOf stop (takeSegments rest).2) ∧
      slice? source ⟨(head.spanAt offset).start, stop⟩ = some s.pathText ∧
      ReadAt source stop (takeSegments rest).2 behind := by
  intro s stop
  -- The path ends where the head and the segments behind it end
  have hstop : (head.spanAt offset).stop +
      byteLength (Lexeme.charsOf (Spread.segmentRow (takeSegments rest).1)) = stop := by
    simp [stop, s, Spread.pathText, Spread.pathRow, Lexeme.spanText, Lexeme.spanAt, Nat.add_assoc]
  refine ⟨?_, ?_, ?_⟩
  · rw [pathEnd_eq, hstop]
  · have htext := h.text
    rw [← takeSegments_append rest, Lexeme.charsOf_append, List.append_assoc,
      ← List.append_assoc] at htext
    exact slice?_of_after? htext
  · have hrest := h.next
    rw [← takeSegments_append rest] at hrest
    have hbehind := hrest.append.2
    rwa [hstop] at hbehind

/-- **The spreads of a row are found where they stand.** The induction is on the pieces and not on
the lexemes: a spread is passed as a whole, with all its segments. -/
theorem findSpreads?_eq {source behind : List Char} {offset : Nat} {row : List Lexeme}
    (h : ReadAt source offset row behind) :
    findSpreads? source (tokensOf offset row) = some (Piece.sites offset (pieces row)) := by
  induction row using pieces_induction generalizing offset with
  | nil => simp [findSpreads?, Piece.sites]
  | single l rest hsingle ih =>
    have hlater : findSpreads? source (tokensOf (l.spanAt offset).stop rest) =
        some (Piece.sites offset (pieces (l :: rest))) := by
      rw [ih h.next, pieces_cons_single hsingle, Piece.sites, Lexeme.stop_spanAt]
      simp [Piece.row, Lexeme.chars]
    rw [← hlater, tokensOf_cons]
    cases rest with
    | nil => simp [findSpreads?]
    | cons next more =>
      rw [tokensOf_cons, findSpreads?]
      split
      · rename_i hspread
        simp only [Bool.and_eq_true, decide_eq_true_eq] at hspread
        -- The name behind the ellipsis begins no path, so it is the word that is left out
        have hon : next.text = ['o', 'n'] := by
          have hnone := hsingle hspread.1
          simpa [beginsPath, Lexeme.isName, hspread.2] using hnone
        simp only [text?_eq h.next, Option.bind_eq_bind, Option.bind_some, hon, if_true]
      · rfl
  | spread dots head rest hdots hhead ih =>
    -- The tests of the search come out as those that cut the row into pieces
    have hname : head.kind = .name := kind_of_beginsPath hhead
    have hon : head.text ≠ ['o', 'n'] := by
      simp only [beginsPath, Bool.and_eq_true, decide_eq_true_eq] at hhead
      exact hhead.2
    obtain ⟨hend, hslice, hrest⟩ := h.next.path dots
    rw [pieces_cons_spread hdots hhead, Piece.sites, tokensOf_cons, tokensOf_cons, findSpreads?,
      if_pos (by simp [hdots, hname])]
    simp only [text?_eq h.next, Option.bind_eq_bind, Option.bind_some, hon, if_false, hend, hslice,
      ih hrest, pure]
    rw [← stop_siteAt]
    rfl

end QueryWeave.Bytes
