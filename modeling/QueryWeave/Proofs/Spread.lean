import QueryWeave.Fragment.Closure
import QueryWeave.Proofs.Lexeme.Balance
import QueryWeave.Proofs.Lexeme.Spelling

/-!
# Laws of Spreads

How the pieces of a row follow from the pieces of its parts, and what becomes of them when every
path is written as one name. Resolving the spreads of a text and flattening those of a body are
both of this kind; the row that results is spelled again, and has the same pieces with the new
names in their spreads.

- `pieces_append`: pieces of a row cut where no path goes on.
- `spells_respread`, `pieces_respread`: rows with their paths renamed.
- `filter_respread`: what is kept of them.
-/

namespace QueryWeave

/-! ## §1 Pieces of parts -/

@[simp] theorem pieces_nil : pieces [] = [] := by
  rw [pieces]

/-- A lexeme that begins no spread is a piece of its own. -/
theorem pieces_cons_single {l : Lexeme} {rest : List Lexeme}
    (h : l.kind = .ellipsis → rest.head?.any beginsPath = false) :
    pieces (l :: rest) = .single l :: pieces rest := by
  cases rest with
  | nil => simp [pieces]
  | cons next more =>
    rw [pieces, if_neg]
    intro hspread
    simp only [Bool.and_eq_true, decide_eq_true_eq] at hspread
    have hnot := h hspread.1
    simp [hspread.2] at hnot

theorem pieces_cons_spread {dots head : Lexeme} (hdots : dots.kind = .ellipsis)
    (hhead : beginsPath head = true) (rest : List Lexeme) :
    pieces (dots :: head :: rest) =
      .spread ⟨dots, head, (takeSegments rest).1⟩ :: pieces (takeSegments rest).2 := by
  rw [pieces, if_pos]
  simp [hdots, hhead]

/-- Induction along the pieces of a row: a lexeme that begins no spread, or a spread in front. -/
theorem pieces_induction {motive : List Lexeme → Prop} (nil : motive [])
    (single : ∀ l rest, (l.kind = .ellipsis → rest.head?.any beginsPath = false) →
      motive rest → motive (l :: rest))
    (spread : ∀ dots head rest, dots.kind = .ellipsis → beginsPath head = true →
      motive (takeSegments rest).2 → motive (dots :: head :: rest))
    (row : List Lexeme) : motive row := by
  fun_induction pieces row with
  | case1 => exact nil
  | case2 l => exact single l [] (fun _ => rfl) nil
  | case3 dots head rest hspread ih =>
    simp only [Bool.and_eq_true, decide_eq_true_eq] at hspread
    exact spread dots head rest hspread.1 hspread.2 ih
  | case4 l next rest hsingle ih =>
    -- An ellipsis is a single piece only if no path begins behind it
    have hnot : l.kind = .ellipsis → beginsPath next = false := by
      simpa using hsingle
    exact single l (next :: rest) hnot ih

/-- A row with a spread in front, cut behind its path. -/
theorem cut_behind_path (head : Lexeme) (rest : List Lexeme) :
    head :: rest = (head :: Spread.segmentRow (takeSegments rest).1) ++ (takeSegments rest).2 := by
  rw [List.cons_append, takeSegments_append]

theorem spreads_cons_single {l : Lexeme} {rest : List Lexeme}
    (h : l.kind = .ellipsis → rest.head?.any beginsPath = false) :
    spreads (l :: rest) = spreads rest := by
  rw [spreads, pieces_cons_single h, List.filterMap_cons]
  rfl

theorem spreads_cons_spread {dots head : Lexeme} (hdots : dots.kind = .ellipsis)
    (hhead : beginsPath head = true) (rest : List Lexeme) :
    spreads (dots :: head :: rest) =
      ⟨dots, head, (takeSegments rest).1⟩ :: spreads (takeSegments rest).2 := by
  rw [spreads, pieces_cons_spread hdots hhead, List.filterMap_cons]
  rfl

/-- Whether a row begins with what may belong to a path that stands in front of it. -/
def continuable (row : List Lexeme) : Bool :=
  row.head?.any fun l => l.isName || l.isMark '.'

/-- No path goes on across a bracket. -/
theorem continuable_of_isBracket {l : Lexeme} (h : l.isBracket = true) (rest : List Lexeme) :
    continuable (l :: rest) = false := by
  rcases Bool.or_eq_true_iff.1 h with hopens | hcloses
  · rcases Lexeme.opens_iff.1 hopens with hkind | hkind | hkind <;>
      simp [continuable, Lexeme.isName, Lexeme.isMark, hkind]
  · rcases Lexeme.closes_iff.1 hcloses with hkind | hkind | hkind <;>
      simp [continuable, Lexeme.isName, Lexeme.isMark, hkind]

theorem takeSegments_append_right {first second : List Lexeme} (h : continuable second = false) :
    takeSegments (first ++ second) =
      ((takeSegments first).1, (takeSegments first).2 ++ second) := by
  fun_induction takeSegments first with
  | case1 dot segment rest hcontinues segments after heq ih =>
    rw [heq] at ih
    simp only [List.cons_append, takeSegments, hcontinues, if_true, ih]
  | case2 dot segment rest hcontinues =>
    simp only [List.cons_append, takeSegments, hcontinues]
    rfl
  | case3 row hshort =>
    -- At most one lexeme is left, so that the seam stands behind it
    match row, hshort with
    | [], _ =>
      match second with
      | [] => rfl
      | [l] => rfl
      | l :: next :: more =>
        simp [continuable] at h
        simp [takeSegments, continuesPath, h]
    | [dot], _ =>
      match second with
      | [] => rfl
      | l :: more =>
        simp [continuable] at h
        simp [takeSegments, continuesPath, h]
    | dot :: segment :: rest, hshort => exact absurd rfl (hshort dot segment rest)

/-- Pieces do not reach across a place where no path can go on. Texts that are put together are
joined at such places, by a line feed or a bracket. -/
theorem pieces_append {first second : List Lexeme} (h : continuable second = false) :
    pieces (first ++ second) = pieces first ++ pieces second := by
  induction first using pieces_induction with
  | nil => simp
  | single l rest hsingle ih =>
    have hseam : l.kind = .ellipsis → (rest ++ second).head?.any beginsPath = false := by
      intro hdots
      cases rest with
      | cons next more => exact hsingle hdots
      | nil =>
        -- Behind the last lexeme the second row begins, and no path goes on there
        cases second with
        | nil => rfl
        | cons next more =>
          simp [continuable] at h
          simp [beginsPath, h]
    rw [List.cons_append, pieces_cons_single hseam, pieces_cons_single hsingle, ih]
    rfl
  | spread dots head rest hdots hhead ih =>
    rw [List.cons_append, List.cons_append, pieces_cons_spread hdots hhead,
      takeSegments_append_right h, ih, pieces_cons_spread hdots hhead]
    rfl

theorem spreads_append {first second : List Lexeme} (h : continuable second = false) :
    spreads (first ++ second) = spreads first ++ spreads second := by
  simp [spreads, pieces_append h]

/-- What holds no ellipsis is a row of single pieces. -/
theorem pieces_append_left {first second : List Lexeme} (h : ∀ l ∈ first, l.kind ≠ .ellipsis) :
    pieces (first ++ second) = first.map Piece.single ++ pieces second := by
  induction first with
  | nil => rfl
  | cons l rest ih =>
    obtain ⟨hl, hrest⟩ := List.forall_mem_cons.1 h
    rw [List.cons_append, pieces_cons_single fun hdots => absurd hdots hl, ih hrest]
    rfl

theorem spreads_append_left {first second : List Lexeme} (h : ∀ l ∈ first, l.kind ≠ .ellipsis) :
    spreads (first ++ second) = spreads second := by
  rw [spreads, pieces_append_left h, List.filterMap_append, List.filterMap_map]
  simp [spreads, Function.comp_def, Piece.spread?]

/-! ## §2 The shape of a spread -/

/-- What a spread of a row is made of: an ellipsis, a name, and touching segments. -/
structure Spread.Formed (s : Spread) : Prop where
  dots : s.dots.kind = .ellipsis
  head : beginsPath s.head = true
  segments : ∀ segment ∈ s.segments, continuesPath segment.1 segment.2 = true

theorem continuesPath_of_mem_takeSegments {row : List Lexeme} :
    ∀ segment ∈ (takeSegments row).1, continuesPath segment.1 segment.2 = true := by
  fun_induction takeSegments row with
  | case1 dot segment rest hcontinues segments after heq ih =>
    rw [heq] at ih
    intro other hother
    rcases List.mem_cons.1 hother with rfl | hother
    · exact hcontinues
    · exact ih other hother
  | case2 => simp
  | case3 => simp

/-- The lexemes of segments are names and dots. -/
theorem kind_of_mem_segmentRow {segments : List (Lexeme × Lexeme)}
    (h : ∀ segment ∈ segments, continuesPath segment.1 segment.2 = true) :
    ∀ l ∈ Spread.segmentRow segments, l.kind = .name ∨ l.kind = .punctuator '.' := by
  intro l hl
  obtain ⟨segment, hsegment, hl⟩ := List.mem_flatMap.1 hl
  have hcontinues := h segment hsegment
  simp only [continuesPath, Bool.and_eq_true, Lexeme.isMark_iff, Lexeme.isName_iff] at hcontinues
  simp only [List.mem_cons, List.not_mem_nil, or_false] at hl
  rcases hl with rfl | rfl
  · exact .inr hcontinues.1.1.1
  · exact .inl hcontinues.1.2

/-- Segments by themselves are taken all. -/
theorem takeSegments_segmentRow {segments : List (Lexeme × Lexeme)}
    (h : ∀ segment ∈ segments, continuesPath segment.1 segment.2 = true) :
    takeSegments (Spread.segmentRow segments) = (segments, []) := by
  induction segments with
  | nil => rfl
  | cons segment rest ih =>
    obtain ⟨hhere, hrest⟩ := List.forall_mem_cons.1 h
    show takeSegments (segment.1 :: segment.2 :: Spread.segmentRow rest) = _
    rw [takeSegments, if_pos hhere, ih hrest]

/-- Behind the segments of a path no further segment stands. -/
theorem takeSegments_behind (row : List Lexeme) :
    takeSegments (takeSegments row).2 = ([], (takeSegments row).2) := by
  fun_induction takeSegments row with
  | case1 dot segment rest hcontinues segments after heq ih =>
    rw [heq] at ih
    exact ih
  | case2 dot segment rest hcontinues =>
    rw [takeSegments, if_neg hcontinues]
  | case3 row hshort =>
    -- Fewer than two lexemes are left, so nothing can continue a path
    match row, hshort with
    | [], _ => rfl
    | [dot], _ => rfl
    | dot :: segment :: rest, hshort => exact absurd rfl (hshort dot segment rest)

/-- Where no segment was taken, the next two lexemes are none. -/
theorem continuesPath_of_takeSegments {dot segment : Lexeme} {rest : List Lexeme}
    (h : takeSegments (dot :: segment :: rest) = ([], dot :: segment :: rest)) :
    continuesPath dot segment = false := by
  by_contra hcontinues
  rw [takeSegments, if_pos (Bool.of_not_eq_false hcontinues)] at h
  simp at h

theorem formed_of_mem_spreads {row : List Lexeme} {s : Spread} (h : s ∈ spreads row) :
    s.Formed := by
  induction row using pieces_induction with
  | nil => simp [spreads] at h
  | single l rest hsingle ih =>
    rw [spreads_cons_single hsingle] at h
    exact ih h
  | spread dots head rest hdots hhead ih =>
    rw [spreads_cons_spread hdots hhead] at h
    rcases List.mem_cons.1 h with rfl | h
    · exact ⟨hdots, hhead, continuesPath_of_mem_takeSegments⟩
    · exact ih h

/-! ## §3 Rows with their paths renamed

A renaming writes every path as one name, and leaves all other lexemes as they are. The text of the
new row is scanned as that row, since every new name stands where the path stood and looks like it
from the front. -/

/-- A piece with the path of its spread written as one name, and all else as it was. -/
def Piece.respread (rename : Spread → Lexeme) : Piece → List Lexeme
  | .single l => [l]
  | .spread s => [s.dots, rename s]

/-- A row with its paths written as single names. -/
def respread (rename : Spread → Lexeme) (row : List Lexeme) : List Lexeme :=
  (pieces row).flatMap (Piece.respread rename)

/-- The name that resolution writes for a path. -/
def Spread.resolved (s : Spread) : Lexeme :=
  ⟨[' '], .name, flattenChars s.pathText⟩

/-- The name that is kept for a path in a registered body. -/
def Spread.flattened (s : Spread) : Lexeme :=
  s.head.respell (flattenChars s.pathText)

theorem resolveSpreads_eq (s : Scan) :
    resolveSpreads s = Lexeme.charsOf (respread Spread.resolved s.lexemes) ++ s.trailer := by
  have hpiece : Piece.resolve = Piece.respread Spread.resolved := by
    funext piece
    cases piece <;> rfl
  rw [resolveSpreads, hpiece, respread]

theorem flattenSpreads_eq (s : Scan) :
    flattenSpreads s = Lexeme.charsOf (respread Spread.flattened s.lexemes) ++ s.trailer := by
  have hpiece : Piece.flatten = Piece.respread Spread.flattened := by
    funext piece
    cases piece <;> rfl
  rw [flattenSpreads, hpiece, respread]

section Respread

variable {rename : Spread → Lexeme}

@[simp] theorem respread_nil : respread rename [] = [] := by
  simp [respread]

theorem respread_cons_single {l : Lexeme} {rest : List Lexeme}
    (h : l.kind = .ellipsis → rest.head?.any beginsPath = false) :
    respread rename (l :: rest) = l :: respread rename rest := by
  rw [respread, pieces_cons_single h]
  rfl

theorem respread_cons_spread {dots head : Lexeme} (hdots : dots.kind = .ellipsis)
    (hhead : beginsPath head = true) (rest : List Lexeme) :
    respread rename (dots :: head :: rest) =
      dots :: rename ⟨dots, head, (takeSegments rest).1⟩ ::
        respread rename (takeSegments rest).2 := by
  rw [respread, pieces_cons_spread hdots hhead]
  rfl

/-- Where nothing is spread, there is nothing to rename. -/
theorem respread_of_no_spreads {row : List Lexeme} (h : spreads row = []) :
    respread rename row = row := by
  induction row using pieces_induction with
  | nil => exact respread_nil
  | single l rest hsingle ih =>
    rw [spreads_cons_single hsingle] at h
    rw [respread_cons_single hsingle, ih h]
  | spread dots head rest hdots hhead ih =>
    rw [spreads_cons_spread hdots hhead] at h
    cases h

theorem respread_append {first second : List Lexeme} (h : continuable second = false) :
    respread rename (first ++ second) = respread rename first ++ respread rename second := by
  simp [respread, pieces_append h]

theorem respread_append_left {first second : List Lexeme} (h : ∀ l ∈ first, l.kind ≠ .ellipsis) :
    respread rename (first ++ second) = first ++ respread rename second := by
  rw [respread, pieces_append_left h, List.flatMap_append, List.flatMap_map, respread]
  simp [Piece.respread]

/-- The first lexeme stays in front. -/
theorem respread_head (l : Lexeme) (rest : List Lexeme) :
    ∃ later, respread rename (l :: rest) = l :: later := by
  by_cases hspread : l.kind = .ellipsis ∧ rest.head?.any beginsPath = true
  · obtain ⟨hdots, hhead⟩ := hspread
    cases rest with
    | nil => simp at hhead
    | cons next more => exact ⟨_, respread_cons_spread hdots (by simpa using hhead) more⟩
  · refine ⟨_, respread_cons_single fun hdots => ?_⟩
    simpa [hdots] using hspread

/-- Helper: behind the path of a spread stands nothing that a name would run into. -/
private theorem clearOf_behind_path {head : Lexeme} {segments : List (Lexeme × Lexeme)}
    {following : List Char} (hname : head.kind = .name)
    (hsegments : ∀ segment ∈ segments, continuesPath segment.1 segment.2 = true)
    (h : Lexeme.Spells (head :: Spread.segmentRow segments) following) :
    following.head?.any isNamePart = false := by
  induction segments generalizing head with
  | nil =>
    obtain ⟨-, hcuts, -⟩ := h
    simpa [Lexeme.clearOf, hname, Spread.segmentRow] using hcuts.clear
  | cons segment rest ih =>
    have hhere := hsegments segment List.mem_cons_self
    simp only [continuesPath, Bool.and_eq_true, Lexeme.isName, decide_eq_true_eq] at hhere
    -- The name of the first segment takes the place of the head
    obtain ⟨-, -, -, -, hbehind⟩ := h
    exact ih hhere.1.2 (fun s hs => hsegments s (List.mem_cons_of_mem _ hs)) hbehind

/-- A row with its paths renamed is spelled where the row was, and looks the same from the front.
The second half is for the induction: the lexeme in front of a spread must not see that it was
renamed. -/
theorem spells_respread {row : List Lexeme} {following : List Char}
    (h : Lexeme.Spells row following)
    (hrename : ∀ s ∈ spreads row,
      (rename s).kind = .name ∧ (rename s).Whole ∧ IsGap (rename s).gap) :
    Lexeme.Spells (respread rename row) following ∧
      Lexeme.Stands (Lexeme.charsOf row ++ following)
        (Lexeme.charsOf (respread rename row) ++ following) := by
  induction row using pieces_induction with
  | nil => exact ⟨by simpa using h, by simpa using Lexeme.stands_rfl⟩
  | single l rest hsingle ih =>
    rw [respread_cons_single hsingle]
    obtain ⟨hl, hcuts, hrest⟩ := h
    rw [spreads_cons_single hsingle] at hrename
    -- What is behind the lexeme looks as it did, so the lexeme is cut as it was
    have hlater := ih hrest hrename
    refine ⟨⟨hl, hcuts.stands hlater.2, hlater.1⟩, ?_⟩
    simp only [Lexeme.charsOf_cons, List.append_assoc] at hlater ⊢
    exact (hlater.2.append l.text).append l.gap
  | spread dots head rest hdots hhead ih =>
    rw [spreads_cons_spread hdots hhead] at hrename
    -- The spread in front: its new name, and the ellipsis that stays
    obtain ⟨hkind, hwhole, hgap⟩ := hrename _ List.mem_cons_self
    rw [respread_cons_spread hdots hhead]
    generalize hnew : rename ⟨dots, head, (takeSegments rest).1⟩ = new at hkind hwhole hgap
    -- The row is cut behind the path: a name there is clear of what follows the path
    obtain ⟨hl, hcuts, hpath⟩ := h
    rw [cut_behind_path, Lexeme.spells_append] at hpath
    have hafter := ih hpath.2 fun s hs => hrename s (List.mem_cons_of_mem _ hs)
    have hclear := clearOf_behind_path (kind_of_beginsPath hhead)
      continuesPath_of_mem_takeSegments hpath.1
    have hdotsWhole : dots.Whole := hcuts.whole (.inr (by simp [hdots]))
    have hdotsClear : ∀ text, dots.clearOf text = true := fun text => by
      simp [Lexeme.clearOf, hdots]
    refine ⟨⟨hl, hdotsWhole.cuts (hdotsClear _), hgap, hwhole.cuts ?_, hafter.1⟩, ?_⟩
    · simp only [Lexeme.clearOf, hkind, hafter.2.head, hclear]
      rfl
    · -- Behind the gap both texts begin with the three dots
      obtain ⟨c, more, htext, hshape⟩ := hdotsWhole
      rw [hdots] at hshape
      obtain ⟨rfl, rfl⟩ := hshape
      simp only [Lexeme.charsOf_cons, htext, List.append_assoc]
      apply Lexeme.Stands.append
      exact ⟨rfl, fun htake => htake⟩

/-- Helper: only the first two lexemes decide whether segments stand at the front of a row, and
these stay where they are. -/
private theorem takeSegments_respread {row : List Lexeme} (h : takeSegments row = ([], row)) :
    takeSegments (respread rename row) = ([], respread rename row) := by
  match row, h with
  | [], _ => simp [takeSegments]
  | [l], _ =>
    rw [respread_cons_single (by simp)]
    simp [takeSegments]
  | dot :: segment :: rest, h =>
    have hcontinues := continuesPath_of_takeSegments h
    by_cases hdot : dot.isMark '.' = true
    · have hkind := Lexeme.isMark_iff.1 hdot
      obtain ⟨later, hlater⟩ := @respread_head rename segment rest
      rw [respread_cons_single (by simp [hkind]), hlater, takeSegments,
        if_neg (by simp [hcontinues])]
    · -- Whatever comes second, the first lexeme is no dot
      obtain ⟨later, hlater⟩ := @respread_head rename dot (segment :: rest)
      have hnot : ∀ next, continuesPath dot next = false := fun next => by
        simp [continuesPath, hdot]
      rw [hlater]
      cases later with
      | nil => simp [takeSegments]
      | cons next more => rw [takeSegments, if_neg (by simp [hnot])]

/-- A piece with the new name in its spread. -/
def Piece.renamed (rename : Spread → Lexeme) : Piece → Piece
  | .single l => .single l
  | .spread s => .spread ⟨s.dots, rename s, []⟩

/-- The pieces of a row with its paths renamed are the pieces of the row, the new names in their
spreads. -/
theorem pieces_respread {row : List Lexeme}
    (hrename : ∀ s ∈ spreads row, beginsPath (rename s) = true) :
    pieces (respread rename row) = (pieces row).map (Piece.renamed rename) := by
  induction row using pieces_induction with
  | nil => simp
  | single l rest hsingle ih =>
    rw [spreads_cons_single hsingle] at hrename
    -- The lexeme still begins no spread: the one behind it stays in front
    have hnew : l.kind = .ellipsis → (respread rename rest).head?.any beginsPath = false := by
      intro hdots
      cases rest with
      | nil => simp
      | cons next more =>
        obtain ⟨later, hlater⟩ := @respread_head rename next more
        rw [hlater]
        exact hsingle hdots
    rw [respread_cons_single hsingle, pieces_cons_single hnew, ih hrename,
      pieces_cons_single hsingle]
    rfl
  | spread dots head rest hdots hhead ih =>
    rw [spreads_cons_spread hdots hhead] at hrename
    have hnew := hrename _ List.mem_cons_self
    have hrest := ih fun s hs => hrename s (List.mem_cons_of_mem _ hs)
    rw [respread_cons_spread hdots hhead, pieces_cons_spread hdots hnew,
      takeSegments_respread (takeSegments_behind rest), hrest, pieces_cons_spread hdots hhead]
    rfl

theorem spreads_respread {row : List Lexeme}
    (hrename : ∀ s ∈ spreads row, beginsPath (rename s) = true) :
    spreads (respread rename row) = (spreads row).map fun s => ⟨s.dots, rename s, []⟩ := by
  rw [spreads, pieces_respread hrename, spreads, List.filterMap_map, List.map_filterMap]
  congr 1
  funext piece
  cases piece <;> rfl

end Respread

/-! ## §4 Flat names -/

theorem flattenChars_append (first second : List Char) :
    flattenChars (first ++ second) = flattenChars first ++ flattenChars second :=
  List.map_append

theorem flattenChars_cons (c : Char) (rest : List Char) :
    flattenChars (c :: rest) = (if c = '.' then '_' else c) :: flattenChars rest := rfl

/-- Without dots there is nothing to flatten. -/
theorem flattenChars_of_no_dot {cs : List Char} (h : '.' ∉ cs) : flattenChars cs = cs := by
  have hkeep : ∀ c ∈ cs, (if c = '.' then '_' else c) = id c :=
    fun c hc => if_neg fun (heq : c = '.') => h (heq ▸ hc)
  rw [flattenChars, List.map_congr_left hkeep, List.map_id]

/-- A name has no dots to replace. -/
theorem flattenChars_of_all {name : List Char} (h : name.all isNamePart = true) :
    flattenChars name = name := by
  apply flattenChars_of_no_dot
  intro hdot
  exact absurd (List.all_eq_true.1 h '.' hdot) (by decide)

/-- The lexemes of a spread are spelled where they stand. -/
theorem spells_row_of_mem_spreads {row : List Lexeme} {following : List Char}
    (h : Lexeme.Spells row following) {s : Spread} (hs : s ∈ spreads row) :
    ∃ behind, Lexeme.Spells s.row behind := by
  induction row using pieces_induction with
  | nil => simp [spreads] at hs
  | single l rest hsingle ih =>
    rw [spreads_cons_single hsingle] at hs
    exact ih h.2.2 hs
  | spread dots head rest hdots hhead ih =>
    -- The row of the first spread is cut off in front, with all its segments
    have hrow : dots :: head :: rest =
        Spread.row ⟨dots, head, (takeSegments rest).1⟩ ++ (takeSegments rest).2 :=
      congrArg (dots :: ·) (cut_behind_path head rest)
    rw [hrow, Lexeme.spells_append] at h
    rw [spreads_cons_spread hdots hhead] at hs
    rcases List.mem_cons.1 hs with rfl | hs
    · exact ⟨_, h.1⟩
    · exact ih h.2 hs

theorem spells_of_mem_spreads {row : List Lexeme} {following : List Char}
    (h : Lexeme.Spells row following) {s : Spread} (hs : s ∈ spreads row) :
    ∃ behind, Lexeme.Spells s.pathRow behind := by
  obtain ⟨behind, -, -, hpath⟩ := spells_row_of_mem_spreads h hs
  exact ⟨behind, hpath⟩

/-- Helper: the characters of touching segments, with every dot replaced. -/
private theorem flattenChars_segmentRow {segments : List (Lexeme × Lexeme)}
    (hsegments : ∀ segment ∈ segments, continuesPath segment.1 segment.2 = true)
    {behind : List Char} (h : Lexeme.Spells (Spread.segmentRow segments) behind) :
    (flattenChars (Lexeme.charsOf (Spread.segmentRow segments))).all isNamePart = true ∧
      (segments ≠ [] → '_' ∈ flattenChars (Lexeme.charsOf (Spread.segmentRow segments))) := by
  induction segments with
  | nil => simp [Spread.segmentRow, flattenChars]
  | cons segment rest ih =>
    obtain ⟨dot, name⟩ := segment
    have hhere := hsegments (dot, name) List.mem_cons_self
    simp only [continuesPath, Bool.and_eq_true, Lexeme.isMark, Lexeme.isName, Lexeme.touches,
      decide_eq_true_eq, List.isEmpty_iff] at hhere
    obtain ⟨⟨⟨hdot, hdotGap⟩, hname⟩, hnameGap⟩ := hhere
    obtain ⟨-, hdotCuts, -, hnameCuts, hrest⟩ := h
    have hlater := ih (fun s hs => hsegments s (List.mem_cons_of_mem _ hs)) hrest
    have hdotText : dot.text = ['.'] := by
      obtain ⟨c, more, htext, hshape⟩ := hdotCuts.whole (.inr (by simp [hdot]))
      rw [hdot] at hshape
      obtain ⟨rfl, rfl, -⟩ := hshape
      exact htext
    have hnameWhole := hnameCuts.whole (.inr (by simp [hname]))
    have hnameText : name.text.all isNamePart = true := hnameWhole.all_isNamePart hname
    have hchars : flattenChars (Lexeme.charsOf (Spread.segmentRow ((dot, name) :: rest))) =
        '_' :: (name.text ++ flattenChars (Lexeme.charsOf (Spread.segmentRow rest))) := by
      rw [← flattenChars_of_all hnameText, ← flattenChars_append]
      simp [Spread.segmentRow, hdotGap, hnameGap, hdotText, flattenChars]
    rw [hchars]
    -- The underscore stands where the dot stood
    refine ⟨?_, fun _ => List.mem_cons_self⟩
    simp only [List.all_cons, List.all_append, hnameText, hlater.1]
    decide

/-- A path with its dots replaced is a name, and begins a path again. It is never the word `on`: a
path of one segment is not `on`, and a longer one has an underscore. -/
theorem whole_flattened {s : Spread} (hs : s.Formed) {behind : List Char}
    (h : Lexeme.Spells s.pathRow behind) (gap : List Char) :
    (⟨gap, .name, flattenChars s.pathText⟩ : Lexeme).Whole ∧
      beginsPath ⟨gap, .name, flattenChars s.pathText⟩ = true := by
  have hhead := hs.head
  simp only [beginsPath, Bool.and_eq_true, Lexeme.isName, decide_eq_true_eq] at hhead
  obtain ⟨hname, hon⟩ := hhead
  obtain ⟨-, hcuts, hsegments⟩ := h
  have hwhole := hcuts.whole (.inr (by simp [hname]))
  have hparts := hwhole.all_isNamePart hname
  obtain ⟨c, more, htext, hshape⟩ := hwhole
  rw [hname] at hshape
  have hbehind := flattenChars_segmentRow hs.segments hsegments
  have hflat : flattenChars s.pathText =
      s.head.text ++ flattenChars (Lexeme.charsOf (Spread.segmentRow s.segments)) := by
    rw [Spread.pathText, Spread.pathRow, Lexeme.spanText, flattenChars_append,
      flattenChars_of_all hparts]
  -- The text begins with the head, and all that follows may stand in a name
  refine ⟨⟨c, more ++ flattenChars (Lexeme.charsOf (Spread.segmentRow s.segments)), ?_, ?_⟩, ?_⟩
  · show flattenChars s.pathText = _
    rw [hflat, htext, List.cons_append]
  · exact ⟨hshape.1, by rw [List.all_append, hshape.2, hbehind.1]; rfl⟩
  · have hnot : flattenChars s.pathText ≠ ['o', 'n'] := by
      rw [hflat]
      by_cases hnil : s.segments = []
      · simpa [hnil, Spread.segmentRow, flattenChars] using hon
      · -- A replaced dot is in the text, and not in `on`
        intro heq
        have hmem := List.mem_append_right s.head.text (hbehind.2 hnil)
        rw [heq] at hmem
        exact absurd hmem (by decide)
    simp [beginsPath, Lexeme.isName, hnot]

/-! ## §5 Resolved and flattened texts -/

/-- A row whose spreads are written by single names. -/
def FlatSpreads (row : List Lexeme) : Prop :=
  ∀ s ∈ spreads row, s.segments = []

/-- Behind a spread of a flat row no segment stands, and the rest of the row is flat. -/
theorem FlatSpreads.behind_spread {dots head : Lexeme} {rest : List Lexeme}
    (h : FlatSpreads (dots :: head :: rest)) (hdots : dots.kind = .ellipsis)
    (hhead : beginsPath head = true) :
    takeSegments rest = ([], rest) ∧ FlatSpreads rest := by
  unfold FlatSpreads at h ⊢
  rw [spreads_cons_spread hdots hhead] at h
  have hsegments : (takeSegments rest).1 = [] := h _ List.mem_cons_self
  have hrest : (takeSegments rest).2 = rest := by
    have happend := takeSegments_append rest
    rwa [hsegments] at happend
  rw [hrest] at h
  exact ⟨Prod.ext hsegments hrest, fun s hs => h s (List.mem_cons_of_mem _ hs)⟩

theorem FlatSpreads.behind_single {l : Lexeme} {rest : List Lexeme} (h : FlatSpreads (l :: rest))
    (hsingle : l.kind = .ellipsis → rest.head?.any beginsPath = false) : FlatSpreads rest := by
  unfold FlatSpreads at h ⊢
  rwa [spreads_cons_single hsingle] at h

/-- What a renaming of paths to their flat names leaves of a scanned text. The new text is not
scanned from scratch: its row is the old one with the paths renamed, and this is proved once,
here. -/
structure Flattened (rename : Spread → Lexeme) (s : Scan) : Prop where
  /-- Scanned again, the text with its paths renamed is the row with its paths renamed. -/
  scans : scan (Lexeme.charsOf (respread rename s.lexemes) ++ s.trailer) =
    ⟨respread rename s.lexemes, s.trailer⟩
  pieces : pieces (respread rename s.lexemes) = (pieces s.lexemes).map (Piece.renamed rename)
  flat : FlatSpreads (respread rename s.lexemes)
  paths : spreadPaths (respread rename s.lexemes) = (spreadPaths s.lexemes).map flattenPath

/-- Helper: the laws hold of every renaming to names with the characters of the flat path. -/
private theorem flattened_of_rename {rename : Spread → Lexeme} {cs : List Char}
    (hrename : ∀ s ∈ spreads (scan cs).lexemes,
      IsGap (rename s).gap ∧ rename s = ⟨(rename s).gap, .name, flattenChars s.pathText⟩) :
    Flattened rename (scan cs) := by
  obtain ⟨hspells, htrailer⟩ := spells_scan cs
  -- The new names are names, and begin paths again
  have hnew : ∀ s ∈ spreads (scan cs).lexemes,
      (rename s).Whole ∧ beginsPath (rename s) = true := by
    intro s hs
    obtain ⟨behind, hpath⟩ := spells_of_mem_spreads hspells hs
    rw [(hrename s hs).2]
    exact whole_flattened (formed_of_mem_spreads hs) hpath _
  have hrow := spells_respread hspells fun s hs => by
    refine ⟨?_, (hnew s hs).1, (hrename s hs).1⟩
    rw [(hrename s hs).2]
  have hspreads := spreads_respread fun s hs => (hnew s hs).2
  refine ⟨scan_charsOf hrow.1 htrailer, pieces_respread fun s hs => (hnew s hs).2, ?_, ?_⟩
  · intro s hs
    rw [hspreads] at hs
    obtain ⟨old, -, rfl⟩ := List.mem_map.1 hs
    rfl
  · rw [spreadPaths, hspreads, spreadPaths, List.map_map, List.map_map]
    apply List.map_congr_left
    intro s hs
    simp only [Function.comp_apply, Spread.path, Spread.pathText, Spread.pathRow, Spread.segmentRow,
      Lexeme.spanText, flattenPath, String.toList_ofList]
    rw [(hrename s hs).2]
    simp [Spread.pathText, Spread.pathRow, Spread.segmentRow, Lexeme.spanText]

theorem flattened_resolved (cs : List Char) : Flattened Spread.resolved (scan cs) :=
  flattened_of_rename fun _ _ => ⟨rfl, rfl⟩

theorem flattened_flattened (cs : List Char) : Flattened Spread.flattened (scan cs) := by
  apply flattened_of_rename
  intro s hs
  obtain ⟨behind, hpath⟩ := spells_of_mem_spreads (spells_scan cs).1 hs
  have hkind := kind_of_beginsPath (formed_of_mem_spreads hs).head
  refine ⟨hpath.1, ?_⟩
  simp [Spread.flattened, Lexeme.respell, hkind]

/-! ## §6 Lexemes outside of paths -/

/-- Lexemes of a sort that no path holds are kept when paths are renamed. Brackets, strings and
variables are of such sorts. -/
theorem filter_respread {p : Lexeme → Bool}
    (hpath : ∀ l : Lexeme, l.kind = .name ∨ l.kind = .punctuator '.' → p l = false)
    {rename : Spread → Lexeme}
    (hrename : ∀ s, beginsPath s.head = true → (rename s).kind = .name) (row : List Lexeme) :
    (respread rename row).filter p = row.filter p := by
  induction row using pieces_induction with
  | nil => simp
  | single l rest hsingle ih =>
    rw [respread_cons_single hsingle, List.filter_cons, List.filter_cons, ih]
  | spread dots head rest hdots hhead ih =>
    -- Neither the old names and dots of a path nor its new name pass the filter
    have hhead' : p head = false := hpath head (.inl (kind_of_beginsPath hhead))
    have hnew : p (rename ⟨dots, head, (takeSegments rest).1⟩) = false :=
      hpath _ (.inl (hrename _ hhead))
    have hsegments : (Spread.segmentRow (takeSegments rest).1).filter p = [] := by
      rw [List.filter_eq_nil_iff]
      intro l hl
      simp [hpath l (kind_of_mem_segmentRow continuesPath_of_mem_takeSegments l hl)]
    rw [respread_cons_spread hdots hhead, cut_behind_path head rest]
    simp only [List.filter_cons, List.cons_append, List.filter_append, hhead', hnew, hsegments, ih]
    simp

/-- No bracket stands in a path. -/
theorem not_isBracket_of_path {l : Lexeme} (h : l.kind = .name ∨ l.kind = .punctuator '.') :
    l.isBracket = false := by
  rcases h with hkind | hkind <;>
    simp [Lexeme.isBracket, Lexeme.opens, Lexeme.closes, Lexeme.isMark, hkind]

end QueryWeave
