import Mathlib.Data.List.Forall2
import Mathlib.Data.List.Infix
import QueryWeave.Proofs.Bytes.Fragments
import QueryWeave.Proofs.Bytes.Tiling

/-!
# Sites of Spreads

Which spreads a text has, told by its tokens alone. A spread begins at every ellipsis with a name
other than `on` directly behind it, whatever stands in front; its path goes on as long as dots and
names touch. The search passes over the tokens of a path at once, and over all others one by one.
None of those that it passes over at once is an ellipsis, so it comes by every place where a spread
begins.

- `LongestRun`, `longestRun_pathEnd`: how far a path goes, and that the search goes as far.
- `forall₂_findSpreads?`: the search finds one site for every place where a spread begins.
- `siteLaws`: the sites of a text.
-/

namespace QueryWeave

namespace Bytes

/-! ## §1 Where spreads begin -/

/-- Whether a row of tokens begins with a spread: with an ellipsis, and a name other than `on`
directly behind it. -/
def opensSpread (source : List Char) : List Token → Bool
  | dots :: head :: _ =>
    dots.kind = .ellipsis && head.kind = .name && head.text? source ≠ some ['o', 'n']
  | _ => false

/-- The rows from every token on, of those that begin with a spread. Every ellipsis of the text is
looked at, whatever path it may stand in. -/
def openings (source : List Char) (tokens : List Token) : List (List Token) :=
  tokens.tails.filter (opensSpread source)

section Openings

variable {source : List Char} {token first : Token} {rest tokens : List Token}

theorem openings_cons_of_opens (h : opensSpread source (token :: rest) = true) :
    openings source (token :: rest) = (token :: rest) :: openings source rest := by
  rw [openings, List.tails_cons, List.filter_cons_of_pos h]
  rfl

theorem openings_cons_of_not (h : opensSpread source (token :: rest) = false) :
    openings source (token :: rest) = openings source rest := by
  rw [openings, List.tails_cons, List.filter_cons_of_neg (by simp [h])]
  rfl

/-- No spread begins at a token that is no ellipsis. -/
theorem opensSpread_of_kind (h : token.kind ≠ .ellipsis) :
    opensSpread source (token :: rest) = false := by
  cases rest with
  | nil => rfl
  | cons head more => simp [opensSpread, h]

/-- Where no ellipsis stands, no spread begins. -/
theorem openings_append {run : List Token} (h : ∀ token ∈ run, token.kind ≠ .ellipsis) :
    openings source (run ++ tokens) = openings source tokens := by
  induction run with
  | nil => rfl
  | cons token more ih =>
    obtain ⟨htoken, hmore⟩ := List.forall_mem_cons.1 h
    rw [List.cons_append, openings_cons_of_not (opensSpread_of_kind htoken), ih hmore]

end Openings

/-! ## §2 How far a path goes

The search takes segments as long as they touch. What it has then is the longest run there is, as
runs in front of one row are fronts of each other. -/

/-- A run of segments from one offset to another. Each is a dot and a name, and both of them touch
what stands in front. -/
inductive Touching : Nat → List Token → Nat → Prop
  | nil (start : Nat) : Touching start [] start
  | cons {start stop : Nat} {dot name : Token} {later : List Token} :
      dot.kind = .punctuator '.' → dot.span.start = start →
      name.kind = .name → name.span.start = dot.span.stop →
      Touching name.span.stop later stop → Touching start (dot :: name :: later) stop

/-- No ellipsis stands in a run. -/
theorem Touching.not_ellipsis {start stop : Nat} {run : List Token} (h : Touching start run stop) :
    ∀ token ∈ run, token.kind ≠ .ellipsis := by
  induction h with
  | nil => simp
  | cons hdot _ hname _ _ ih => simpa [hdot, hname] using ih

/-- The longest run of segments in front of a row: every other one is a front of it. So the runs in
front of a row are a chain, and the search may take the first it finds that cannot go on. -/
structure LongestRun (start : Nat) (row run : List Token) (stop : Nat) : Prop where
  front : run <+: row
  touching : Touching start run stop
  longest : ∀ other last, other <+: row → Touching start other last → other <+: run

theorem adjacent_iff {stop : Nat} {dot segment : Token} :
    adjacent stop dot segment = true ↔
      dot.kind = .punctuator '.' ∧ dot.span.start = stop ∧ segment.kind = .name ∧
        segment.span.start = dot.span.stop := by
  simp [adjacent, Token.isMark, and_assoc]

section Runs

variable {stop : Nat} {dot segment : Token} {rest : List Token}

/-- A segment in front of the longest run makes it longer. -/
theorem LongestRun.cons {run : List Token} {last : Nat}
    (hadjacent : adjacent stop dot segment = true)
    (h : LongestRun segment.span.stop rest run last) :
    LongestRun stop (dot :: segment :: rest) (dot :: segment :: run) last := by
  obtain ⟨hdot, hstart, hname, htouches⟩ := adjacent_iff.1 hadjacent
  constructor
  case front => simpa [List.cons_prefix_cons] using h.front
  case touching => exact .cons hdot hstart hname htouches h.touching
  case longest =>
    intro other end' hfront htouching
    cases htouching with
    | nil => exact List.nil_prefix
    | cons _ _ _ _ hlater =>
      -- The other run begins with the same segment, and goes on in the rest
      obtain ⟨rfl, hbehind⟩ := List.cons_prefix_cons.1 hfront
      obtain ⟨rfl, hrest⟩ := List.cons_prefix_cons.1 hbehind
      simpa [List.cons_prefix_cons] using h.longest _ _ hrest hlater

/-- Where no segment follows, the longest run is empty. -/
theorem longestRun_nil {row : List Token}
    (h : ∀ dot segment rest, row = dot :: segment :: rest → adjacent stop dot segment = false) :
    LongestRun stop row [] stop := by
  constructor
  case front => exact List.nil_prefix
  case touching => exact .nil stop
  case longest =>
    intro other last hfront htouching
    -- A run that is not empty would begin with a segment
    cases htouching with
    | nil => exact List.nil_prefix
    | @cons _ _ dot name later hdot hstart hname htouches _ =>
      obtain ⟨behind, hrow⟩ := hfront
      have hnot := h dot name (later ++ behind) hrow.symm
      rw [adjacent_iff.2 ⟨hdot, hstart, hname, htouches⟩] at hnot
      cases hnot

/-- **The search goes along the longest run of segments**, and on behind it. -/
theorem longestRun_pathEnd (stop : Nat) (tokens : List Token) :
    ∃ run, run ++ (pathEnd stop tokens).2 = tokens ∧
      LongestRun stop tokens run (pathEnd stop tokens).1 := by
  fun_induction pathEnd stop tokens with
  | case1 stop dot segment rest hadjacent ih =>
    obtain ⟨run, happend, hrun⟩ := ih
    refine ⟨dot :: segment :: run, ?_, hrun.cons hadjacent⟩
    rw [List.cons_append, List.cons_append, happend]
  | case2 stop dot segment rest hadjacent =>
    refine ⟨[], rfl, longestRun_nil fun d s r hrow => ?_⟩
    cases hrow
    simpa using hadjacent
  | case3 stop tokens hshort =>
    exact ⟨[], rfl, longestRun_nil fun d s r hrow => absurd hrow (hshort d s r)⟩

end Runs

/-! ## §3 The search -/

/-- What the site is of the spread at the front of a row: the path is the source from the first name
through the longest run of segments, and the spread is that from the ellipsis on. A row has one site
at most, since the longest run is one. -/
inductive IsSite (source : List Char) : List Token → SpreadSite → Prop
  | intro {dots head : Token} {rest run : List Token} {stop : Nat} {path : List Char} :
      LongestRun head.span.stop rest run stop →
      slice? source ⟨head.span.start, stop⟩ = some path →
      IsSite source (dots :: head :: rest)
        ⟨String.ofList path, ⟨head.span.start, stop⟩, ⟨dots.span.start, stop⟩⟩

/-- **The search finds one site for every place where a spread begins**, in order, and no others.
The search skips a path as a whole; that it misses nothing by this is what the run without an
ellipsis is needed for. -/
theorem forall₂_findSpreads? {source : List Char} {tokens : List Token} {sites : List SpreadSite}
    (h : findSpreads? source tokens = some sites) :
    List.Forall₂ (IsSite source) (openings source tokens) sites := by
  fun_induction findSpreads? source tokens generalizing sites with
  | case1 =>
    cases h
    exact .nil
  | case2 token =>
    cases h
    exact .nil
  | case3 dots head rest hnamed ihon ihpath =>
    simp only [Bool.and_eq_true, decide_eq_true_eq] at hnamed
    obtain ⟨hdots, hname⟩ := hnamed
    obtain ⟨word, hword, h⟩ := Option.bind_eq_some_iff.1 h
    by_cases hon : word = ['o', 'n']
    · -- A type condition stands here, and the search goes on with its `on`
      rw [if_pos hon] at h
      have hnot : opensSpread source (dots :: head :: rest) = false := by
        simp [opensSpread, hword, hon]
      rw [openings_cons_of_not hnot]
      exact ihon h
    · -- A spread: its path is sliced out, and the search goes on behind it
      rw [if_neg hon] at h
      obtain ⟨path, hpath, h⟩ := Option.bind_eq_some_iff.1 h
      obtain ⟨later, hlater, h⟩ := Option.bind_eq_some_iff.1 h
      cases h
      have hopens : opensSpread source (dots :: head :: rest) = true := by
        simp [opensSpread, hdots, hname, hword, hon]
      obtain ⟨run, happend, hrun⟩ := longestRun_pathEnd head.span.stop rest
      -- What the search passes over at once are names and dots, so no other spread begins there
      have hbehind : openings source (head :: rest) =
          openings source (pathEnd head.span.stop rest).2 := by
        rw [openings_cons_of_not (opensSpread_of_kind (by simp [hname])), ← happend,
          openings_append hrun.touching.not_ellipsis, happend]
      rw [openings_cons_of_opens hopens, hbehind]
      exact .cons (.intro hrun hpath) (ihpath hlater)
  | case4 dots head rest hnamed ih =>
    have hnot : opensSpread source (dots :: head :: rest) = false := by
      simp only [opensSpread, Bool.eq_false_iff.2 hnamed, Bool.false_and]
    rw [openings_cons_of_not hnot]
    exact ih h

/-! ## §4 Spreads where they stand -/

/-- What a site says of the spread that stands there: its path, and the two spans that are sliced
out of the source for it. The span of the path ends where that of the spread does. -/
structure FoundAt (source : List Char) (s : Spread) (site : SpreadSite) : Prop where
  path : site.path = s.path
  pathText : slice? source site.pathSpan = some s.pathText
  text : slice? source site.span = some (Lexeme.spanText s.row)
  order : site.span.start < site.pathSpan.start ∧ site.pathSpan.start < site.pathSpan.stop
  stop : site.pathSpan.stop = site.span.stop

/-- The text of a lexeme takes up bytes. -/
theorem byteLength_pos_of_cuts {l : Lexeme} {following : List Char} (h : l.Cuts following) :
    0 < byteLength l.text := by
  obtain ⟨c, more, htext, -⟩ := h
  have hpos := Char.utf8Size_pos c
  simp only [htext, byteLength]
  omega

/-- The spread at the front of a row is found there. Its span runs from the ellipsis to the end of
the path, blanks and comments between the two included. -/
theorem ReadAt.foundAt {source behind : List Char} {offset : Nat} {dots head : Lexeme}
    {rest : List Lexeme} (h : ReadAt source offset (dots :: head :: rest) behind) :
    let s : Spread := ⟨dots, head, (takeSegments rest).1⟩
    FoundAt source s (s.siteAt offset) := by
  intro s
  obtain ⟨-, hpathText, -⟩ := h.next.path dots
  have hdots := byteLength_pos_of_cuts h.spelled.2.1
  have hhead := byteLength_pos_of_cuts h.spelled.2.2.2.1
  constructor
  case path => rfl
  case pathText => exact hpathText
  case text =>
    -- The row of the spread is read behind the gap of its dots
    have htext := h.text
    have hrow : dots.text ++ (Lexeme.charsOf (head :: rest) ++ behind) =
        Lexeme.spanText s.row ++ (Lexeme.charsOf (takeSegments rest).2 ++ behind) := by
      rw [cut_behind_path head rest, Lexeme.charsOf_append]
      simp [s, Spread.row, Spread.pathRow, Lexeme.spanText]
    rw [hrow] at htext
    have hslice := slice?_of_after? htext
    have hspan : (s.siteAt offset).span =
        ⟨(dots.spanAt offset).start,
          (dots.spanAt offset).start + byteLength (Lexeme.spanText s.row)⟩ := by
      simp [s, Spread.siteAt, Spread.row, Spread.pathText, Spread.pathRow, Lexeme.spanText,
        Lexeme.spanAt, Nat.add_assoc]
    rw [hspan, hslice]
  case order =>
    simp only [Spread.siteAt, Lexeme.spanAt, Spread.pathText, Spread.pathRow, Lexeme.spanText,
      byteLength_append, s]
    omega
  case stop => rfl

/-- Every site of a row is that of one of its spreads. -/
theorem exists_foundAt {source behind : List Char} {offset : Nat} {row : List Lexeme}
    (h : ReadAt source offset row behind) :
    ∀ site ∈ Piece.sites offset (pieces row), ∃ s ∈ spreads row, FoundAt source s site := by
  induction row using pieces_induction generalizing offset with
  | nil => simp [Piece.sites]
  | single l rest hsingle ih =>
    rw [pieces_cons_single hsingle, spreads_cons_single hsingle, Piece.sites]
    have hrest := ih h.next
    rw [Lexeme.stop_spanAt] at hrest
    simpa [Piece.row, Lexeme.chars] using hrest
  | spread dots head rest hdots hhead ih =>
    obtain ⟨-, -, hrest⟩ := h.next.path dots
    rw [pieces_cons_spread hdots hhead, spreads_cons_spread hdots hhead, Piece.sites, ← stop_siteAt]
    -- The first site is that of the spread in front, and the others stand behind its path
    refine List.forall_mem_cons.2 ⟨⟨_, List.mem_cons_self, h.foundAt⟩, fun site hsite => ?_⟩
    obtain ⟨s, hs, hfound⟩ := ih hrest site hsite
    exact ⟨s, List.mem_cons_of_mem _ hs, hfound⟩

/-- The sites of pieces are in order: all behind where the first piece begins, and each behind the
one before. -/
theorem ordered_sites (offset : Nat) (ps : List Piece) :
    (∀ site ∈ Piece.sites offset ps, offset ≤ site.span.start) ∧
      (Piece.sites offset ps).Pairwise fun a b => a.span.stop ≤ b.span.start := by
  induction ps generalizing offset with
  | nil => simp [Piece.sites]
  | cons piece rest ih =>
    obtain ⟨hbehind, hordered⟩ := ih (offset + byteLength (Lexeme.charsOf piece.row))
    have hlater : ∀ site ∈ Piece.sites (offset + byteLength (Lexeme.charsOf piece.row)) rest,
        offset ≤ site.span.start :=
      fun site hsite => (Nat.le_add_right _ _).trans (hbehind site hsite)
    cases piece with
    | single l => exact ⟨hlater, hordered⟩
    | spread s =>
      have hhere : offset ≤ (s.siteAt offset).span.start := Nat.le_add_right _ _
      -- The spread ends where the next piece begins
      have hstop : ∀ site ∈
          Piece.sites (offset + byteLength (Lexeme.charsOf (Piece.spread s).row)) rest,
            (s.siteAt offset).span.stop ≤ site.span.start := by
        intro site hsite
        rw [stop_siteAt]
        exact hbehind site hsite
      exact ⟨List.forall_mem_cons.2 ⟨hhere, hlater⟩, List.pairwise_cons.2 ⟨hstop, hordered⟩⟩

end Bytes

/-! ## §5 Names of a path -/

/-- The names of a path, in order. -/
def Spread.names (s : Spread) : List String :=
  (s.head :: s.segments.map Prod.snd).map Lexeme.word

/-- Helper: a name and touching segments are names with a dot between each two. -/
private theorem intercalate_segments {head : Lexeme} {segments : List (Lexeme × Lexeme)}
    {behind : List Char} (hname : head.kind = .name)
    (hsegments : ∀ segment ∈ segments, continuesPath segment.1 segment.2 = true)
    (h : Lexeme.Spells (head :: Spread.segmentRow segments) behind) :
    (∀ l ∈ head :: segments.map Prod.snd, IsName l.text) ∧
      head.text ++ Lexeme.charsOf (Spread.segmentRow segments) =
        ['.'].intercalate ((head :: segments.map Prod.snd).map Lexeme.text) := by
  have hhead : IsName head.text :=
    (h.whole_of_kind head List.mem_cons_self (by simp [hname])).isName hname
  induction segments generalizing head with
  | nil => simpa [Spread.segmentRow] using hhead
  | cons segment rest ih =>
    obtain ⟨dot, name⟩ := segment
    obtain ⟨hhere, hlater⟩ := List.forall_mem_cons.1 hsegments
    simp only [continuesPath, Bool.and_eq_true, Lexeme.isName_iff, Lexeme.touches,
      List.isEmpty_iff] at hhere
    obtain ⟨⟨⟨hdot, hdotGap⟩, hsegment⟩, hgap⟩ := hhere
    have hdotText : dot.text = ['.'] :=
      h.text_of_isMark (List.mem_cons_of_mem _ List.mem_cons_self) hdot
    -- The name of the segment takes the place of the head
    obtain ⟨-, -, -, -, hrest⟩ := h
    have hnext : IsName name.text :=
      (hrest.whole_of_kind name List.mem_cons_self (by simp [hsegment])).isName hsegment
    obtain ⟨hnames, htext⟩ := ih hsegment hlater hrest hnext
    refine ⟨List.forall_mem_cons.2 ⟨hhead, hnames⟩, ?_⟩
    rw [List.map_cons, List.map_cons, List.map_cons, List.intercalate_cons_cons, ← List.map_cons,
      ← htext]
    simp [Spread.segmentRow, hdotGap, hgap, hdotText]

/-- **A path is names with a dot between each two, and nothing else.** No blank and no comment can
stand in it, because every dot and every name of it touches what is in front. -/
theorem Spread.path_eq_intercalate {s : Spread} (hs : s.Formed) {behind : List Char}
    (h : Lexeme.Spells s.pathRow behind) :
    (∀ name ∈ s.names, IsName name.toList) ∧ s.path = ".".intercalate s.names := by
  obtain ⟨hnames, htext⟩ := intercalate_segments (kind_of_beginsPath hs.head) hs.segments h
  -- The words of the names are the texts of the lexemes
  have hwords : s.names.map String.toList =
      (s.head :: s.segments.map Prod.snd).map Lexeme.text := by
    rw [names, List.map_map]
    apply List.map_congr_left
    exact fun l _ => String.toList_ofList
  constructor
  · intro name hname
    obtain ⟨l, hl, rfl⟩ := List.mem_map.1 hname
    rw [Lexeme.word, String.toList_ofList]
    exact hnames l hl
  · apply String.toList_inj.1
    rw [String.toList_intercalate, hwords, path, String.toList_ofList]
    exact htext

/-- Helper: flattening exchanges the dots between names. -/
private theorem flattenChars_intercalate {names : List (List Char)}
    (h : ∀ name ∈ names, IsName name) :
    flattenChars (['.'].intercalate names) = ['_'].intercalate names := by
  induction names with
  | nil => rfl
  | cons name rest ih =>
    obtain ⟨hname, hrest⟩ := List.forall_mem_cons.1 h
    -- A name holds no dot, so only what stands between the names is exchanged
    cases rest with
    | nil => simpa using flattenChars_of_all hname.all
    | cons next more =>
      rw [List.intercalate_cons_cons, List.intercalate_cons_cons, flattenChars_append,
        flattenChars_append, flattenChars_of_all hname.all, ih hrest]
      rfl

/-- The flat name of a path has underscores for its dots. -/
theorem flattenPath_intercalate {names : List String} (h : ∀ name ∈ names, IsName name.toList) :
    flattenPath (".".intercalate names) = "_".intercalate names := by
  apply String.toList_inj.1
  rw [flattenPath, String.toList_ofList, String.toList_intercalate, String.toList_intercalate]
  apply flattenChars_intercalate
  intro name hname
  obtain ⟨word, hword, rfl⟩ := List.mem_map.1 hname
  exact h word hword

/-- Nothing in a path is ignored: it is written without blanks and without commas. So a path is
found in the text as it is registered. -/
theorem not_isIgnored_of_names {names : List String} (h : ∀ name ∈ names, IsName name.toList) :
    ∀ c ∈ (".".intercalate names).toList, isIgnored c = false := by
  rw [String.toList_intercalate]
  induction names with
  | nil => simp
  | cons name rest ih =>
    obtain ⟨hname, hrest⟩ := List.forall_mem_cons.1 h
    have hhere : ∀ c ∈ name.toList, isIgnored c = false := by
      intro c hc
      have hbegins := (beginsLexeme_of_part (.inl (List.all_eq_true.1 hname.all c hc))).1
      simp only [beginsLexeme, Bool.and_eq_true, Bool.not_eq_true'] at hbegins
      exact hbegins.2
    cases rest with
    | nil => simpa using hhere
    | cons next more =>
      -- Besides the names there are only the dots between them
      have hdot : isIgnored '.' = false := by decide
      rw [List.map_cons, List.map_cons, List.intercalate_cons_cons]
      refine List.forall_mem_append.2 ⟨List.forall_mem_append.2 ⟨hhere, ?_⟩, ih hrest⟩
      simpa using hdot

/-! ## §6 The sites of a text -/

namespace Bytes

/-- What the sites are that are found in a text. The first three laws say which sites there are, by
the tokens of the text alone; the others say of every site where it stands, how its path reads, and
that it stands behind the site before. -/
structure SiteLaws (source : List Char) : Prop where
  /-- The tokens are those that the cursor reads. -/
  lexed : tokenize? source = some (tokenize source)
  /-- The search finds the sites among the tokens, with slices that exist. -/
  found : findSpreads? source (tokenize source) = some (spreadSites (scan source).lexemes)
  /-- There is one for every place where a spread begins, in order. -/
  each : List.Forall₂ (IsSite source) (openings source (tokenize source))
    (spreadSites (scan source).lexemes)
  /-- A path is the source in its span, and the spread ends with it. -/
  sliced : ∀ site ∈ spreadSites (scan source).lexemes,
    slice? source site.pathSpan = some site.path.toList ∧ site.pathSpan.stop = site.span.stop
  /-- A path is names with a dot between each two, and its flat name has underscores there. -/
  dotted : ∀ site ∈ spreadSites (scan source).lexemes,
    ∃ names, names ≠ [] ∧ (∀ name ∈ names, IsName name.toList) ∧
      site.path = ".".intercalate names ∧ flattenPath site.path = "_".intercalate names
  /-- It is written without blanks and without commas. -/
  unbroken : ∀ site ∈ spreadSites (scan source).lexemes,
    ∀ c ∈ site.path.toList, isIgnored c = false
  /-- The path stands behind the ellipsis, and is not empty. -/
  inside : ∀ site ∈ spreadSites (scan source).lexemes,
    site.span.start < site.pathSpan.start ∧ site.pathSpan.start < site.span.stop
  /-- Each spread stands behind the one before. -/
  ordered : (spreadSites (scan source).lexemes).Pairwise fun a b => a.span.stop ≤ b.span.start

/-- **The sites of a text are those of its spreads**, each found once.

This is stated of every text, whether or not it is an operation: fragment bodies are searched by the
same function. -/
theorem siteLaws (source : List Char) : SiteLaws source := by
  have hread := readAt_scan source
  have hfound : findSpreads? source (tokenize source) = some (spreadSites (scan source).lexemes) :=
    findSpreads?_eq hread
  have hsites := exists_foundAt hread
  -- The path of each site, as the names of its spread
  have hnames : ∀ site ∈ spreadSites (scan source).lexemes, ∃ s : Spread,
      FoundAt source s site ∧ (∀ name ∈ s.names, IsName name.toList) ∧
        site.path = ".".intercalate s.names := by
    intro site hsite
    obtain ⟨s, hs, hat⟩ := hsites site hsite
    obtain ⟨behind, hspells⟩ := spells_of_mem_spreads hread.spelled hs
    obtain ⟨hnames, hpath⟩ := s.path_eq_intercalate (formed_of_mem_spreads hs) hspells
    exact ⟨s, hat, hnames, hat.path.trans hpath⟩
  constructor
  case lexed => exact tokenize?_eq source
  case found => exact hfound
  case each => exact forall₂_findSpreads? hfound
  case sliced =>
    intro site hsite
    obtain ⟨s, -, hat⟩ := hsites site hsite
    refine ⟨?_, hat.stop⟩
    rw [hat.pathText, hat.path, Spread.path, String.toList_ofList]
  case dotted =>
    intro site hsite
    obtain ⟨s, -, hnames, hpath⟩ := hnames site hsite
    refine ⟨s.names, List.cons_ne_nil _ _, hnames, hpath, ?_⟩
    rw [hpath, flattenPath_intercalate hnames]
  case unbroken =>
    intro site hsite
    obtain ⟨s, -, hnames, hpath⟩ := hnames site hsite
    rw [hpath]
    exact not_isIgnored_of_names hnames
  case inside =>
    intro site hsite
    obtain ⟨s, -, hat⟩ := hsites site hsite
    exact ⟨hat.order.1, hat.stop ▸ hat.order.2⟩
  case ordered => exact (ordered_sites 0 _).2

/-- The word `on` begins a type condition, and is a name like any other inside a path. -/
example : spreadSites (scan "{...auth.user ... on User ... ...a.on .b}".toList).lexemes =
    [⟨"auth.user", ⟨4, 13⟩, ⟨1, 13⟩⟩, ⟨"a.on", ⟨33, 37⟩, ⟨30, 37⟩⟩] := by
  decide +kernel

end Bytes

end QueryWeave
