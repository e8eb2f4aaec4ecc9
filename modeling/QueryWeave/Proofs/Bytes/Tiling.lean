import Mathlib.Data.List.Pairwise
import QueryWeave.Proofs.Bytes.Lexer
import QueryWeave.Proofs.Lexeme.Forms

/-!
# Tilings

The tokens of a text by the lexical grammar alone: where they stand, what stands between them, and
which form each of them has. A text has one tiling, and the scanner finds it.

- `tiles_iff`: the tokens of the scanner are the only ones that tile the text.
- `Tiles.behind_comment`: no token stands in a comment.
- `tilingLaws`: both, with what the cursor finds.
-/

namespace QueryWeave

/-- Whether an offset lies in a span. -/
def Span.Holds (span : Span) (offset : Nat) : Prop :=
  span.start ≤ offset ∧ offset < span.stop

namespace Bytes

/-! ## §1 Parts -/

/-- The text in a span, and what stands behind it. -/
def Parts (source : List Char) (span : Span) (text following : List Char) : Prop :=
  slice? source span = some text ∧ after? source span.stop = some following

theorem parts_iff {source text following : List Char} {span : Span} :
    Parts source span text following ↔
      after? source span.start = some (text ++ following) ∧
        span.start + byteLength text = span.stop := by
  obtain ⟨start, stop⟩ := span
  dsimp only [Parts]
  constructor
  · -- A slice is cut out of the front of the text that ends where the slice does
    rintro ⟨hslice, hafter⟩
    obtain ⟨⟨front, back⟩, hcut, htext⟩ := Option.bind_eq_some_iff.1 hslice
    obtain ⟨rfl, rfl⟩ := cut?_inversion hcut
    obtain ⟨lead, rfl, rfl⟩ := after?_inversion htext
    rw [after?_append] at hafter
    cases hafter
    rw [List.append_assoc, byteLength_append]
    exact ⟨after?_append lead (text ++ following), rfl⟩
  · rintro ⟨hafter, rfl⟩
    exact ⟨slice?_of_after? hafter, after?_add hafter⟩

theorem after?_byteLength (source : List Char) : after? source (byteLength source) = some [] := by
  simpa using after?_append source []

theorem isBoundary_of_after? {source rest : List Char} {offset : Nat}
    (h : after? source offset = some rest) : IsBoundary source offset :=
  after?_isSome_iff.1 (by rw [h]; rfl)

/-! ## §2 Tilings

A tiling is said of any row of tokens, without a scanner: tokens in order, each of the grammar, and
nothing but ignored text outside of them. Two tilings of one text are the same, token by token. -/

/-- What the grammar demands of a token by itself. Nothing in it refers to a scanner: the token
stands between two characters, begins with what begins a lexeme, and is as long as its form
allows. -/
structure Token.Grammatical (source : List Char) (t : Token) : Prop where
  nonempty : t.span.start < t.span.stop
  boundaries : IsBoundary source t.span.start ∧ IsBoundary source t.span.stop
  /-- No token begins with what is ignored. -/
  begins : ∃ c rest, after? source t.span.start = some (c :: rest) ∧ c ≠ '#' ∧ isIgnored c = false
  /-- The token is the longest one of the first form that applies. -/
  form : ∃ (f : Lexeme.Form) (text following : List Char), f.kind = t.kind ∧
    Parts source t.span text following ∧ f.IsFirst text following

/-- Whether the text in a span is ignored. -/
def IgnoredAt (source : List Char) (span : Span) : Prop :=
  ∃ gap following, Parts source span gap following ∧ Ignored gap following

/-- The spans in front of the first token from an offset on, between the tokens, and behind the last
one to the end. -/
def gaps (offset stop : Nat) : List Token → List Span
  | [] => [⟨offset, stop⟩]
  | t :: row => ⟨offset, t.span.start⟩ :: gaps t.span.stop stop row

/-- A row of tokens that makes up a text from an offset on. The tokens are in order and grammatical,
and all that stands in front of them, between them and behind them is ignored. -/
structure Tiles (source : List Char) (offset : Nat) (row : List Token) : Prop where
  behind : ∀ t ∈ row, offset ≤ t.span.start
  ordered : row.Pairwise fun t u => t.span.stop ≤ u.span.start
  grammatical : ∀ t ∈ row, t.Grammatical source
  ignored : ∀ span ∈ gaps offset (byteLength source) row, IgnoredAt source span

variable {source rest : List Char} {offset : Nat}

theorem tiles_nil_iff : Tiles source offset [] ↔ IgnoredAt source ⟨offset, byteLength source⟩ := by
  constructor
  · intro h
    exact h.ignored _ List.mem_cons_self
  · intro h
    exact ⟨by simp, .nil, by simp, by simpa [gaps] using h⟩

/-- A tiling is told token by token: what is ignored in front, the token, and a tiling of what is
behind it. This is where induction on the row starts from. -/
theorem tiles_cons_iff {t : Token} {row : List Token} :
    Tiles source offset (t :: row) ↔
      IgnoredAt source ⟨offset, t.span.start⟩ ∧ t.Grammatical source ∧
        Tiles source t.span.stop row := by
  constructor
  · intro h
    obtain ⟨hbehind, hordered⟩ := List.pairwise_cons.1 h.ordered
    obtain ⟨ht, hrow⟩ := List.forall_mem_cons.1 h.grammatical
    obtain ⟨hgap, hgaps⟩ := List.forall_mem_cons.1 h.ignored
    exact ⟨hgap, ht, hbehind, hordered, hrow, hgaps⟩
  · rintro ⟨hgap, ht, hrow⟩
    -- The gap is a slice, so the token does not begin in front of it
    have hstart : offset ≤ t.span.start := by
      obtain ⟨gap, following, hparts, -⟩ := hgap
      have hlength := (parts_iff.1 hparts).2
      dsimp only at hlength
      omega
    constructor
    case behind =>
      refine List.forall_mem_cons.2 ⟨hstart, fun u hu => ?_⟩
      have hnonempty := ht.nonempty
      have hbehind := hrow.behind u hu
      omega
    case ordered => exact List.pairwise_cons.2 ⟨hrow.behind, hrow.ordered⟩
    case grammatical => exact List.forall_mem_cons.2 ⟨ht, hrow.grammatical⟩
    case ignored => exact List.forall_mem_cons.2 ⟨hgap, hrow.ignored⟩

/-! ## §3 The tiling of the scanner -/

/-- What the scanner cuts off is a token of the grammar. -/
theorem grammatical_of_cuts {l : Lexeme} {following : List Char} {start : Nat}
    (hafter : after? source start = some (l.text ++ following)) (hcuts : l.Cuts following) :
    Token.Grammatical source ⟨l.kind, start, start + byteLength l.text⟩ := by
  obtain ⟨c, more, htext, hbegins, hclass⟩ := hcuts
  -- The class that the scanner gave is that of the first form
  obtain ⟨f, hkind, hfirst⟩ := Lexeme.isFirst_iff.2 ⟨c, more, htext, hclass⟩
  constructor
  case nonempty =>
    have hpos := Char.utf8Size_pos c
    simp only [htext, byteLength]
    omega
  case boundaries => exact ⟨isBoundary_of_after? hafter, isBoundary_of_after? (after?_add hafter)⟩
  case begins =>
    refine ⟨c, more ++ following, by rw [hafter, htext]; rfl, ?_⟩
    simpa [beginsLexeme] using hbegins
  case form => exact ⟨f, l.text, following, hkind, parts_iff.2 ⟨hafter, rfl⟩, hfirst⟩

/-- What stands in front of a lexeme is ignored exactly if it is a gap. -/
theorem ignoredAt_iff {l : Lexeme} {following : List Char} {span : Span} (hcuts : l.Cuts following)
    (hparts : Parts source span l.gap (l.text ++ following)) :
    IgnoredAt source span ↔ IsGap l.gap := by
  obtain ⟨c, more, htext, hbegins, -⟩ := hcuts
  rw [htext] at hparts
  -- What follows begins a lexeme, so no comment is left open in front of it
  have hiff : Ignored l.gap (c :: more ++ following) ↔ IsGap l.gap :=
    ignored_iff_isGap (by simp) (by simpa using hbegins)
  rw [← hiff]
  constructor
  · rintro ⟨gap, behind, ⟨hslice, hafter⟩, hignored⟩
    rw [hparts.1] at hslice
    rw [hparts.2] at hafter
    cases hslice
    cases hafter
    exact hignored
  · intro h
    exact ⟨l.gap, _, hparts, h⟩

/-- A token of the grammar behind ignored text is a lexeme that the scanner cuts off. The grammar
speaks of a span in the source, the scanner of characters; this is where the one becomes the other.
-/
theorem Token.Grammatical.lexeme {t : Token} (h : t.Grammatical source)
    (hgap : IgnoredAt source ⟨offset, t.span.start⟩) :
    ∃ (l : Lexeme) (following : List Char), t = ⟨l.kind, l.spanAt offset⟩ ∧ IsGap l.gap ∧
      l.Cuts following ∧ after? source offset = some (l.gap ++ (l.text ++ following)) := by
  obtain ⟨gap, behind, hfront, hignored⟩ := hgap
  obtain ⟨f, text, following, hkind, hparts, hfirst⟩ := h.form
  obtain ⟨c, more, htext, hclass⟩ := Lexeme.isFirst_iff.1 ⟨f, hkind, hfirst⟩
  obtain ⟨d, rest, hafter, hhash, hignored'⟩ := h.begins
  obtain ⟨hbehind, hstop⟩ := parts_iff.1 hparts
  obtain ⟨hrest, hstart⟩ := parts_iff.1 hfront
  -- The ignored text ends where the token begins
  obtain rfl : behind = text ++ following := by
    have hends := hfront.2
    rw [hbehind] at hends
    exact (Option.some.inj hends).symm
  have hcuts : Lexeme.Cuts ⟨gap, t.kind, text⟩ following := by
    refine ⟨c, more, htext, ?_, hclass⟩
    rw [hbehind, htext] at hafter
    cases hafter
    simp [beginsLexeme, hhash, hignored']
  refine ⟨⟨gap, t.kind, text⟩, following, ?_,
    (ignoredAt_iff hcuts hfront).1 ⟨gap, _, hfront, hignored⟩, hcuts, hrest⟩
  obtain ⟨kind, start, stop⟩ := t
  dsimp only at hstart hstop
  subst hstart hstop
  rfl

theorem tiles_tokensOf {row : List Lexeme} {trailer : List Char}
    (hspells : Lexeme.Spells row trailer) (htrailer : (gapState false trailer).isSome)
    (hafter : after? source offset = some (Lexeme.charsOf row ++ trailer)) :
    Tiles source offset (tokensOf offset row) := by
  induction row generalizing offset with
  | nil =>
    refine tiles_nil_iff.2 ⟨trailer, [], parts_iff.2 ⟨by simpa using hafter, ?_⟩,
      ignored_nil_iff.2 htrailer⟩
    obtain ⟨front, rfl, rfl⟩ := after?_inversion hafter
    simp
  | cons l more ih =>
    -- A gap, a token, and the tokens of the rest from where it ends
    obtain ⟨hgap, hcuts, hmore⟩ := hspells
    simp only [Lexeme.charsOf_cons, List.append_assoc] at hafter
    have htext := after?_add hafter
    have hparts : Parts source ⟨offset, offset + byteLength l.gap⟩ l.gap
        (l.text ++ (Lexeme.charsOf more ++ trailer)) := parts_iff.2 ⟨hafter, rfl⟩
    rw [tokensOf_cons]
    exact tiles_cons_iff.2 ⟨(ignoredAt_iff hcuts hparts).2 hgap, grammatical_of_cuts htext hcuts,
      ih hmore (after?_add htext)⟩

theorem Tiles.eq_tokensOf {row : List Token} (h : Tiles source offset row)
    (hafter : after? source offset = some rest) : row = tokensOf offset (scan rest).lexemes := by
  induction row generalizing offset rest with
  | nil =>
    obtain ⟨gap, following, hparts, hignored⟩ := tiles_nil_iff.1 h
    -- Nothing stands behind the end, so all of the rest is ignored
    have hend := hparts.2
    rw [after?_byteLength] at hend
    cases hend
    have hrest := (parts_iff.1 hparts).1
    rw [hafter, List.append_nil] at hrest
    cases hrest
    rw [scan_of_gapState (ignored_nil_iff.1 hignored)]
    rfl
  | cons t more ih =>
    obtain ⟨hgap, ht, hmore⟩ := tiles_cons_iff.1 h
    obtain ⟨l, following, rfl, hisGap, hcuts, hrest⟩ := ht.lexeme hgap
    rw [hafter] at hrest
    cases hrest
    -- The scanner cuts the same lexeme off
    have hspells : Lexeme.Spells [l] following := ⟨hisGap, hcuts, trivial⟩
    have hscan := scan_of_spells hspells
    simp only [Lexeme.charsOf_cons, Lexeme.charsOf_nil, List.append_nil, List.append_assoc] at hscan
    have hbehind : after? source (l.spanAt offset).stop = some following :=
      after?_add (after?_add hafter)
    rw [hscan, List.singleton_append, tokensOf_cons, ih hmore hbehind]

/-- **From any offset, the tokens of the scanner are the only ones that tile the rest of a
text.** -/
theorem tiles_iff {row : List Token} (hafter : after? source offset = some rest) :
    Tiles source offset row ↔ row = tokensOf offset (scan rest).lexemes := by
  constructor
  · intro h
    exact h.eq_tokensOf hafter
  · rintro rfl
    obtain ⟨hspells, htrailer⟩ := spells_scan rest
    have hchars : Lexeme.charsOf (scan rest).lexemes ++ (scan rest).trailer = rest :=
      chars_scan rest
    exact tiles_tokensOf hspells htrailer (by rw [hchars, hafter])

/-! ## §4 Strings and comments -/

/-- The sign that begins a comment is followed by a line break in every gap. -/
theorem exists_lineBreak_of_isGap {front line : List Char} (h : IsGap (front ++ '#' :: line)) :
    ∃ c ∈ line, isLineBreak c = true := by
  by_contra hnone
  have hline : ∀ c ∈ line, isLineBreak c = false := fun c hc => by
    by_contra hbreak
    exact hnone ⟨c, hc, by simpa using hbreak⟩
  unfold IsGap at h
  rw [gapState_append] at h
  obtain ⟨state, -, hstate⟩ := Option.bind_eq_some_iff.1 h
  -- Inside a comment or outside, the sign leaves the rest of the line in a comment
  have hopen : gapState state ('#' :: line) = gapState true line := by
    cases state <;> rfl
  rw [hopen, ← List.append_nil line, gapState_line hline] at hstate
  cases hstate

/-- A line is no longer than a text with a line break. -/
theorem byteLength_line_le {part : List Char} (h : ∃ c ∈ part, isLineBreak c = true)
    (rest : List Char) :
    byteLength ((part ++ rest).takeWhile fun c => !isLineBreak c) ≤ byteLength part := by
  induction part with
  | nil => simp at h
  | cons c more ih =>
    by_cases hbreak : isLineBreak c = true
    · -- The line ends in front of the line break, at the latest
      simp [hbreak]
    · have hmore : ∃ d ∈ more, isLineBreak d = true := by
        obtain ⟨d, hd, hends⟩ := h
        rcases List.mem_cons.1 hd with rfl | hd
        · exact absurd hends hbreak
        · exact ⟨d, hd, hends⟩
      simpa [hbreak, byteLength] using ih hmore

/-- A comment in front of a lexeme is over where the lexeme begins. A gap is not left inside a
comment, so the line of the comment ends within the gap. -/
theorem line_le_of_gap {l : Lexeme} {behind line : List Char} {start : Nat} (hgap : IsGap l.gap)
    (hafter : after? source offset = some (l.gap ++ behind))
    (hcomment : after? source start = some ('#' :: line)) (hstart : offset ≤ start)
    (hlt : start < (l.spanAt offset).start) :
    start + byteLength ('#' :: line.takeWhile fun c => !isLineBreak c) ≤
      (l.spanAt offset).start := by
  obtain ⟨front, rfl, rfl⟩ := after?_inversion hafter
  obtain ⟨lead, hsource, rfl⟩ := after?_inversion hcomment
  obtain ⟨before, rfl, hbefore⟩ := append_of_byteLength_le hsource.symm hstart
  simp only [Lexeme.spanAt, byteLength_append] at hlt ⊢
  -- The comment begins inside the gap
  obtain ⟨part, hpart, hbehind⟩ := append_of_byteLength_le hbefore (by omega)
  cases part with
  | nil =>
    rw [List.append_nil] at hpart
    subst hpart
    omega
  | cons c more =>
    rw [List.cons_append] at hbehind
    obtain ⟨rfl, rfl⟩ := List.cons.inj hbehind
    rw [← hpart] at hgap ⊢
    have hline := byteLength_line_le (exists_lineBreak_of_isGap hgap) behind
    simp only [byteLength, byteLength_append]
    omega

/-- **No token stands in a comment**: every token ends in front of it, or begins behind its line. A
hash sign inside a string begins no comment, which is what the last hypothesis rules out. -/
theorem Tiles.behind_comment {row : List Token} {start : Nat} {line : List Char}
    (h : Tiles source offset row) (hstart : offset ≤ start)
    (hcomment : after? source start = some ('#' :: line))
    (houtside : ∀ t ∈ row, ¬t.span.Holds start) :
    ∀ t ∈ row, t.span.stop ≤ start ∨
      start + byteLength ('#' :: line.takeWhile fun c => !isLineBreak c) ≤ t.span.start := by
  induction row generalizing offset with
  | nil => simp
  | cons t more ih =>
    obtain ⟨hgap, ht, hmore⟩ := tiles_cons_iff.1 h
    obtain ⟨hout, hothers⟩ := List.forall_mem_cons.1 houtside
    by_cases hbefore : t.span.start ≤ start
    · have hstop : t.span.stop ≤ start := Nat.le_of_not_lt fun hlt => hout ⟨hbefore, hlt⟩
      exact List.forall_mem_cons.2 ⟨.inl hstop, ih hmore hstop hothers⟩
    · -- The comment stands in the gap of the first token, and all others stand behind that
      obtain ⟨l, following, rfl, hisGap, -, hafter⟩ := ht.lexeme hgap
      have hline := line_le_of_gap hisGap hafter hcomment hstart (Nat.lt_of_not_le hbefore)
      refine List.forall_mem_cons.2 ⟨.inr hline, fun u hu => .inr ?_⟩
      have hnonempty := ht.nonempty
      have hbehind := hmore.behind u hu
      dsimp only at hnonempty hbehind
      omega

/-! ## §5 The tiling laws -/

/-- The tokens of a text. -/
def tokenize (source : List Char) : List Token :=
  tokensOf 0 (scan source).lexemes

/-- Whether two tokens have no part of the text in common. -/
def Apart (t u : Token) : Prop :=
  t.span.stop ≤ u.span.start ∨ u.span.stop ≤ t.span.start

instance : Std.Symm Apart :=
  ⟨fun _ _ h => h.symm⟩

/-- How a text is tiled. The first two laws say what is found, which is all there is to say; the
other two follow from them, and are what a search for marks or names relies on: it cannot come upon
one inside a string or a comment. -/
structure TilingLaws (source : List Char) : Prop where
  /-- The cursor reads the text to its end. -/
  found : tokenize? source = some (tokenize source)
  /-- What it finds is the only tiling. -/
  tiled : ∀ row, Tiles source 0 row ↔ row = tokenize source
  /-- Nothing else is found in a string. -/
  strings : ∀ s ∈ tokenize source, s.kind = .stringValue → ∀ t ∈ tokenize source, t ≠ s → Apart t s
  /-- Nothing is found in a comment, from its sign through its line. -/
  comments : ∀ start line, after? source start = some ('#' :: line) →
    (∀ t ∈ tokenize source, ¬t.span.Holds start) → ∀ t ∈ tokenize source, t.span.stop ≤ start ∨
      start + byteLength ('#' :: line.takeWhile fun c => !isLineBreak c) ≤ t.span.start

/-- **Every text has one tiling, and its tokens are found.** No text is malformed as far as tokens
are concerned: a string without an end runs to the end of the text, and any other character is a
mark. -/
theorem tilingLaws (source : String) : TilingLaws source.toList := by
  have htiles : Tiles source.toList 0 (tokenize source.toList) :=
    (tiles_iff (after?_zero _)).2 rfl
  constructor
  case found => exact tokenize?_eq source.toList
  case tiled => exact fun row => tiles_iff (after?_zero _)
  case strings =>
    intro s hs _ t ht hne
    -- Of two tokens in order, the first ends before the second begins
    have hdisjoint := htiles.ordered.imp (S := Apart) fun hle => .inl hle
    exact hdisjoint.forall ht hs hne
  case comments =>
    intro start line hcomment houtside
    exact htiles.behind_comment (Nat.zero_le _) hcomment houtside

end Bytes

end QueryWeave
