import QueryWeave.Lexeme

/-!
# Fragment Spreads

A named spread is an ellipsis and a path: a name other than `on`, and any number of `.name`
segments that touch what stands before them. Grouping a row of lexemes into *pieces* makes
every spread one piece, and leaves every other lexeme a piece of its own; to
change the spreads of a text is then to change single pieces.
-/

namespace QueryWeave

/-! ## §1 Spreads -/

/-- A named spread: the ellipsis, the first name of the path, and the touching segments, each a dot
and a name. The gap in front of the first name belongs to that name, so that it is kept when the
path is written anew. -/
structure Spread where
  dots : Lexeme
  head : Lexeme
  segments : List (Lexeme × Lexeme)
  deriving Repr, DecidableEq

namespace Spread

def segmentRow (segments : List (Lexeme × Lexeme)) : List Lexeme :=
  segments.flatMap fun segment => [segment.1, segment.2]

def pathRow (s : Spread) : List Lexeme :=
  s.head :: segmentRow s.segments

def row (s : Spread) : List Lexeme :=
  s.dots :: s.pathRow

def pathText (s : Spread) : List Char :=
  Lexeme.spanText s.pathRow

def path (s : Spread) : String :=
  String.ofList s.pathText

end Spread

/-- A spread, or a lexeme that belongs to none. -/
inductive Piece where
  | single (lexeme : Lexeme)
  | spread (s : Spread)
  deriving Repr, DecidableEq

namespace Piece

/-- The lexemes of a piece. -/
def row : Piece → List Lexeme
  | .single lexeme => [lexeme]
  | .spread s => s.row

def spread? : Piece → Option Spread
  | .single _ => none
  | .spread s => some s

end Piece

/-! ## §2 Grouping -/

/-- Whether a dot and a name continue a path. Both must touch what stands before them: behind
`...card`, the text ` .name` is no segment. -/
def continuesPath (dot segment : Lexeme) : Bool :=
  dot.isMark '.' && dot.touches && segment.isName && segment.touches

/-- The touching segments at the front of a row, and what follows them. -/
def takeSegments : List Lexeme → List (Lexeme × Lexeme) × List Lexeme
  | dot :: segment :: rest =>
    if continuesPath dot segment then
      let (segments, after) := takeSegments rest
      ((dot, segment) :: segments, after)
    else ([], dot :: segment :: rest)
  | row => ([], row)

/-- Taking segments loses no lexeme. -/
theorem takeSegments_append (row : List Lexeme) :
    Spread.segmentRow (takeSegments row).1 ++ (takeSegments row).2 = row := by
  fun_induction takeSegments row with
  | case1 dot segment rest h segments after heq ih =>
    rw [heq] at ih
    simpa [Spread.segmentRow] using ih
  | case2 dot segment rest h => rfl
  | case3 row h => rfl

/-- What follows the segments is no longer than the row. -/
theorem length_takeSegments_le (row : List Lexeme) :
    (takeSegments row).2.length ≤ row.length := by
  conv => rhs; rw [← takeSegments_append row]
  simp

/-- Whether the lexeme behind an ellipsis begins a path. The word `on` begins a type condition
instead. -/
def beginsPath (l : Lexeme) : Bool :=
  l.isName && l.text ≠ ['o', 'n']

theorem kind_of_beginsPath {l : Lexeme} (h : beginsPath l = true) : l.kind = .name := by
  simp only [beginsPath, Bool.and_eq_true, Lexeme.isName, decide_eq_true_eq] at h
  exact h.1

/-- The pieces of a row: an ellipsis, the name behind it and its segments go together, and every
other lexeme stands by itself. -/
def pieces : List Lexeme → List Piece
  | [] => []
  | [l] => [.single l]
  | l :: next :: rest =>
    -- The segments are taken at once, so that their dots are no pieces
    if l.kind = .ellipsis && beginsPath next then
      .spread ⟨l, next, (takeSegments rest).1⟩ :: pieces (takeSegments rest).2
    else .single l :: pieces (next :: rest)
termination_by row => row.length
decreasing_by
  · have := length_takeSegments_le rest
    simp only [List.length_cons]
    omega
  · simp

/-- The lexemes of a row of pieces. -/
def Piece.rowOf (ps : List Piece) : List Lexeme :=
  ps.flatMap Piece.row

/-- Grouping loses no lexeme, so that a change of pieces is a change of the row at these places and
nowhere else. -/
@[simp] theorem rowOf_pieces (row : List Lexeme) : Piece.rowOf (pieces row) = row := by
  fun_induction pieces row with
  | case1 => rfl
  | case2 l => rfl
  -- A spread, with the segments that were taken behind its first name
  | case3 l next rest h ih =>
    simp only [Piece.rowOf, List.flatMap_cons] at ih ⊢
    rw [ih]
    simp [Piece.row, Spread.row, Spread.pathRow, takeSegments_append]
  | case4 l next rest h ih =>
    simp only [Piece.rowOf, List.flatMap_cons] at ih ⊢
    rw [ih]
    rfl

/-- The spreads of a row, in order. -/
def spreads (row : List Lexeme) : List Spread :=
  (pieces row).filterMap Piece.spread?

/-- The paths that a text spreads, in order. -/
def spreadPaths (row : List Lexeme) : List String :=
  (spreads row).map Spread.path

/-! ## §3 Where spreads stand -/

/-- A spread with the bytes of its path and of the whole, as a caller asks for them who wants to
replace the one or the other in the text. -/
structure SpreadSite where
  path : String
  pathSpan : Span
  span : Span
  deriving Repr, DecidableEq

/-- The site of a spread whose first gap begins at `offset`. -/
def Spread.siteAt (offset : Nat) (s : Spread) : SpreadSite :=
  let dots := s.dots.spanAt offset
  let pathStart := dots.stop + byteLength s.head.gap
  let stop := pathStart + byteLength s.pathText
  ⟨s.path, ⟨pathStart, stop⟩, ⟨dots.start, stop⟩⟩

/-- The sites of the spreads among pieces, the first gap beginning at `offset`. -/
def Piece.sites (offset : Nat) : List Piece → List SpreadSite
  | [] => []
  | piece :: rest =>
    let after := offset + byteLength (Lexeme.charsOf piece.row)
    match piece with
    | .single _ => sites after rest
    | .spread s => s.siteAt offset :: sites after rest

/-- The sites of the spreads of a text. -/
def spreadSites (row : List Lexeme) : List SpreadSite :=
  Piece.sites 0 (pieces row)

end QueryWeave
