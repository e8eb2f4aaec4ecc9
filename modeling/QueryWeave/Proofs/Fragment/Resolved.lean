import QueryWeave.Proofs.Bytes.Fragments
import QueryWeave.Proofs.Fragment.Reachable

/-!
# Resolved Texts

What resolution makes of a text. Every spread is written as three dots, a blank and one name; what
stands outside of the spreads is kept byte for byte. The new text is never looked at by the
resolution that wrote it, but it is scanned again later on. Its tokens are then those of the old
text, each path collapsed into one name, and it spreads what the old text spread, by flat name. So
to resolve it once more changes nothing.

- `Bytes.outside?`: the texts outside of spans.
- `Library.resolve_again`: to resolve once more changes nothing.
- `Library.rewritingLaws_resolve`: what a resolved text is, against the text.
-/

namespace QueryWeave

/-! ## §1 Texts outside of spreads -/

/-- The texts of a source outside of spans, from `last` on: in front of each span, and behind the
last. There are none if a span does not fit in. With the texts in the spans they make up the source,
so two sources with the same outside differ in the spans only. -/
def Bytes.outside? (source : List Char) (last : Nat) : List Span → Option (List (List Char))
  | [] => (after? source last).map fun rest => [rest]
  | span :: rest => do
    let front ← slice? source ⟨last, span.start⟩
    let later ← outside? source span.stop rest
    return front :: later

namespace Piece

/-- The texts outside of the spreads among pieces, with `pending` in front of the pieces and
`behind` behind them. A spread begins behind its gap. -/
def outside (behind pending : List Char) : List Piece → List (List Char)
  | [] => [pending ++ behind]
  | .single l :: rest => outside behind (pending ++ l.chars) rest
  | .spread s :: rest => (pending ++ s.dots.gap) :: outside behind [] rest

/-- The names in spreads do not stand outside of them. -/
theorem outside_renamed (rename : Spread → Lexeme) (behind pending : List Char) (ps : List Piece) :
    outside behind pending (ps.map (renamed rename)) = outside behind pending ps := by
  induction ps generalizing pending with
  | nil => rfl
  | cons piece rest ih =>
    cases piece with
    | single l => exact ih _
    | spread s => exact congrArg ((pending ++ s.dots.gap) :: ·) (ih [])

end Piece

/-- The spans of the spreads of a text. -/
def spreadSpans (text : String) : List Span :=
  (spreadSites (scanText text).lexemes).map SpreadSite.span

/-- Between the sites of a row lies what is outside of its pieces. What is pending in front is
carried along, up to the next spread or to the end. -/
theorem outside?_sites {source pending behind : List Char} {last : Nat} {row : List Lexeme}
    (h : Bytes.after? source last = some (pending ++ (Lexeme.charsOf row ++ behind))) :
    Bytes.outside? source last
        ((Piece.sites (last + byteLength pending) (pieces row)).map SpreadSite.span) =
      some (Piece.outside behind pending (pieces row)) := by
  induction row using pieces_induction generalizing last pending with
  | nil => simpa [Piece.sites, Bytes.outside?, Piece.outside] using h
  | single l rest hsingle ih =>
    -- The lexeme becomes pending
    have hpending : Bytes.after? source last =
        some (pending ++ l.chars ++ (Lexeme.charsOf rest ++ behind)) := by
      simpa [Lexeme.chars] using h
    have hrest := ih hpending
    rw [pieces_cons_single hsingle, Piece.sites]
    simpa [Piece.row, Piece.outside, Lexeme.chars, Nat.add_assoc] using hrest
  | spread dots head rest hdots hhead ih =>
    obtain ⟨hfront, -, hnext⟩ := Bytes.slices_at_spread h
    -- Nothing is pending behind the spread
    have hrest := @ih [] _ hnext
    rw [byteLength_nil, Nat.add_zero] at hrest
    rw [pieces_cons_spread hdots hhead, Piece.sites, ← Bytes.stop_siteAt, List.map_cons,
      Bytes.outside?, hfront, hrest]
    rfl

theorem outside?_spreadSpans (text : String) :
    Bytes.outside? text.toList 0 (spreadSpans text) =
      some (Piece.outside (scanText text).trailer [] (pieces (scanText text).lexemes)) := by
  have hchars : (scanText text).chars = text.toList := chars_scan text.toList
  have hstart : Bytes.after? text.toList 0 =
      some ([] ++ (Lexeme.charsOf (scanText text).lexemes ++ (scanText text).trailer)) := by
    rw [Bytes.after?_zero, ← hchars]
    rfl
  have houtside := outside?_sites hstart
  rwa [byteLength_nil, Nat.add_zero] at houtside

/-! ## §2 Spreads by flat name

In a resolved text every spread is written the same way. So its sites can be told without looking
for them, and what stands outside of them is what stood outside before. -/

/-- A spread of a flat name is the text at its site: three dots, a blank and the name. It is so of
resolved texts, in which every spread is one name with one blank in front. -/
theorem slice?_sites {source pending behind : List Char} {last : Nat} {row : List Lexeme}
    (h : Bytes.after? source last = some (pending ++ (Lexeme.charsOf row ++ behind)))
    (hspelled : Lexeme.Spells row behind)
    (hflat : ∀ s ∈ spreads row, s.segments = [] ∧ s.head.gap = [' ']) :
    ∀ site ∈ Piece.sites (last + byteLength pending) (pieces row),
      Bytes.slice? source site.span = some ("... ".toList ++ site.path.toList) := by
  induction row using pieces_induction generalizing last pending with
  | nil => simp [Piece.sites]
  | single l rest hsingle ih =>
    have hpending : Bytes.after? source last =
        some (pending ++ l.chars ++ (Lexeme.charsOf rest ++ behind)) := by
      simpa [Lexeme.chars] using h
    rw [spreads_cons_single hsingle] at hflat
    have hrest := ih hpending hspelled.2.2 hflat
    rw [pieces_cons_single hsingle, Piece.sites]
    simpa [Piece.row, Lexeme.chars, Nat.add_assoc] using hrest
  | spread dots head rest hdots hhead ih =>
    rw [spreads_cons_spread hdots hhead] at hflat
    obtain ⟨hsegments, hgap⟩ := hflat _ List.mem_cons_self
    dsimp only at hsegments hgap
    -- The dots are always three, and behind them stands the one blank that resolution writes
    have hthree := Bytes.text_of_ellipsis hspelled List.mem_cons_self hdots
    obtain ⟨-, -, hnext⟩ := Bytes.slices_at_spread h
    have hrest := @ih [] _ hnext (Bytes.spells_behind_path hspelled)
      fun s hs => hflat s (List.mem_cons_of_mem _ hs)
    rw [byteLength_nil, Nat.add_zero] at hrest
    rw [pieces_cons_spread hdots hhead, Piece.sites, ← Bytes.stop_siteAt]
    refine List.forall_mem_cons.2 ⟨?_, hrest⟩
    -- Behind the gap of the dots stand the dots, the blank and the name
    have hbehind : Bytes.after? source (last + byteLength (pending ++ dots.gap)) =
        some (('.' :: '.' :: '.' :: ' ' :: head.text) ++ (Lexeme.charsOf rest ++ behind)) := by
      apply Bytes.after?_add
      rw [h]
      simp [hthree, hgap]
    have hslice := Bytes.slice?_of_after? hbehind
    have hspan : (Spread.siteAt (last + byteLength pending)
        ⟨dots, head, (takeSegments rest).1⟩).span =
        ⟨last + byteLength (pending ++ dots.gap), last + byteLength (pending ++ dots.gap) +
          byteLength ('.' :: '.' :: '.' :: ' ' :: head.text)⟩ := by
      simp [Spread.siteAt, Lexeme.spanAt, hthree, hgap, hsegments, Spread.pathText, Spread.pathRow,
        Spread.segmentRow, Lexeme.spanText, byteLength]
      omega
    rw [hspan, hslice]
    simp [Spread.siteAt, Spread.path, Spread.pathText, Spread.pathRow, Spread.segmentRow,
      Lexeme.spanText, hsegments]

/-! ## §3 Resolving again -/

/-- Names that resolution has written are left as they are. -/
theorem Spread.resolved_resolved (s : Spread) :
    Spread.resolved ⟨s.dots, s.resolved, []⟩ = s.resolved := by
  simp [Spread.resolved, Spread.pathText, Spread.pathRow, Spread.segmentRow, Lexeme.spanText,
    flattenChars_flattenChars]

/-- The row of a resolved text is left as it is. -/
theorem respread_resolved_again (cs : List Char) :
    respread Spread.resolved (respread Spread.resolved (scan cs).lexemes) =
      respread Spread.resolved (scan cs).lexemes := by
  have hpieces := (flattened_resolved cs).pieces
  -- A written spread has a path of one segment, which is its own flat name
  have hpiece : ∀ piece : Piece, (piece.renamed Spread.resolved).respread Spread.resolved =
      piece.respread Spread.resolved := by
    intro piece
    cases piece with
    | single l => rfl
    | spread s => simp [Piece.renamed, Piece.respread, s.resolved_resolved]
  rw [respread, hpieces, List.flatMap_map, funext hpiece, respread]

namespace Library

/-- It does not matter to the search whether the paths are flat. -/
theorem needs_map_flattenPath {lib : Library} {visiting paths used all : List String}
    (h : lib.needs visiting paths used = .ok all) :
    lib.needs visiting (paths.map flattenPath) used = .ok all := by
  fun_induction lib.needs visiting paths used with
  | case1 visiting used => rwa [List.map_nil, needs]
  | case2 => cases h
  | case3 visiting used path rest f hfind hlisted ih =>
    have hflat := (lib.find?_flattenPath path).trans hfind
    rw [List.map_cons, needs_of_find? hflat, if_pos hlisted]
    exact ih h
  | case4 => cases h
  | case5 => cases h
  | case6 visiting used path rest f hfind hlisted hvisiting below hbelow ihbelow ihrest =>
    -- The body is searched as it was: only the paths given are flat
    have hflat := (lib.find?_flattenPath path).trans hfind
    rw [List.map_cons, needs_of_find? hflat, if_neg hlisted, if_neg hvisiting, hbelow]
    exact ihrest h

/-- A resolved text is resolved: it stays as it is, and needs what it needed. -/
theorem resolve_again {lib : Library} {text : String} {resolved : Resolved}
    (h : lib.resolve text = .ok resolved) : lib.resolve resolved.text = .ok resolved := by
  have hscan := scan_resolved h
  -- The text is its own resolution, and it spreads the flat names in the places of the paths
  have htext : String.ofList (resolveSpreads (scanText resolved.text)) = resolved.text := by
    rw [hscan, resolveSpreads_eq]
    dsimp only
    rw [scanText, respread_resolved_again, ← resolveSpreads_eq, ← scanText,
      (dependenciesFirst_of_resolve h).1]
  have hpaths : QueryWeave.spreadPaths (scanText resolved.text).lexemes =
      (pathsSpread text).map flattenPath := pathsSpread_resolved h
  refine resolve_eq_ok_iff.2 ⟨?_, htext.symm⟩
  rw [hpaths]
  exact needs_map_flattenPath (resolve_eq_ok_iff.1 h).1

end Library

/-! ## §4 Resolved texts -/

/-- The tokens of a piece, with the path of a spread collapsed into its flat name. -/
def Piece.collapsed : Piece → List Token
  | .single l => [l.token]
  | .spread s => [s.dots.token, (.name, (flattenPath s.path).toList)]

/-- A spread with its path written by flat name, behind a blank. -/
def Spread.byFlatName (s : Spread) : Spread :=
  ⟨s.dots, ⟨[' '], .name, (flattenPath s.path).toList⟩, []⟩

namespace Library

/-- **The laws of resolved texts.** They say what the resolution of a text wrote, and that the text
it wrote is read so. The text is looked at as tokens, as spreads and as bytes, since each view
leaves something out: tokens have no gaps, and bytes have no names. -/
structure RewritingLaws (lib : Library) (text : String) (resolved : Resolved) : Prop where
  /-- Every path leads to a fragment, and the flat name of the path is the name of that fragment. -/
  named : ∀ path ∈ pathsSpread text,
    ∃ f, lib.find? path = some f ∧ f.flatName = flattenPath path
  /-- The tokens are those of the text, each path collapsed into the flat name. -/
  tokens : tokensOf resolved.text = (pieces (scanText text).lexemes).flatMap Piece.collapsed
  /-- The spreads are those of the text, in order, by flat name. -/
  spreads : QueryWeave.spreads (scanText resolved.text).lexemes =
    (QueryWeave.spreads (scanText text).lexemes).map Spread.byFlatName
  /-- So as many are found, in the same order, each under a flat name. -/
  found : (spreadSites (scanText resolved.text).lexemes).map SpreadSite.path =
    (spreadSites (scanText text).lexemes).map fun site => flattenPath site.path
  /-- Every spread is three dots, a blank and the name. -/
  written : ∀ site ∈ spreadSites (scanText resolved.text).lexemes,
    Bytes.slice? resolved.text.toList site.span = some ("... ".toList ++ site.path.toList)
  /-- Outside of the spreads stands what stood there. -/
  outside : ∃ texts, Bytes.outside? text.toList 0 (spreadSpans text) = some texts ∧
    Bytes.outside? resolved.text.toList 0 (spreadSpans resolved.text) = some texts
  again : lib.resolve resolved.text = .ok resolved

/-- **Resolving a text writes its spreads by flat name and touches nothing else.** Every text that
is resolved obeys the laws, whatever the library. -/
theorem rewritingLaws_resolve {lib : Library} {text : String} {resolved : Resolved}
    (h : lib.resolve text = .ok resolved) : lib.RewritingLaws text resolved := by
  have hscan := scan_resolved h
  have hflattened : Flattened Spread.resolved (scanText text) := flattened_resolved _
  -- All laws are read off the pieces: those of the text, with the paths in them renamed
  have hpieces : pieces (scanText resolved.text).lexemes =
      (pieces (scanText text).lexemes).map (Piece.renamed Spread.resolved) := by
    rw [hscan]
    exact hflattened.pieces
  have hspreads : QueryWeave.spreads (scanText resolved.text).lexemes =
      (QueryWeave.spreads (scanText text).lexemes).map Spread.byFlatName := by
    rw [QueryWeave.spreads, hpieces, QueryWeave.spreads, List.filterMap_map, List.map_filterMap]
    congr 1
    funext piece
    cases piece with
    | single l => rfl
    | spread s => simp [Piece.renamed, Piece.spread?, Spread.byFlatName, Spread.resolved,
        flattenPath, Spread.path]
  exact {
    named := fun path hpath => by
      obtain ⟨f, hfind, -⟩ := (dependenciesFirst_of_resolve h).2.2 path hpath
      exact ⟨f, hfind, lib.flatName_of_find? hfind⟩
    tokens := by
      rw [tokensOf, hscan, respread, List.map_flatMap]
      congr 1
      funext piece
      cases piece with
      | single l => rfl
      | spread s => simp [Piece.respread, Piece.collapsed, Spread.resolved, Lexeme.token,
          flattenPath, Spread.path]
    spreads := hspreads
    found := by
      rw [Bytes.map_path_spreadSites, hscan, hflattened.paths, ← Bytes.map_path_spreadSites,
        List.map_map]
      rfl
    written := by
      have hspelled := (spells_scan resolved.text.toList).1
      have hstart : Bytes.after? resolved.text.toList 0 =
          some ([] ++ (Lexeme.charsOf (scanText resolved.text).lexemes ++
            (scanText resolved.text).trailer)) := by
        rw [Bytes.after?_zero]
        exact congrArg some (chars_scan resolved.text.toList).symm
      have hsites := slice?_sites hstart hspelled fun s hs => by
        rw [hspreads] at hs
        obtain ⟨old, -, rfl⟩ := List.mem_map.1 hs
        exact ⟨rfl, rfl⟩
      rwa [byteLength_nil, Nat.add_zero] at hsites
    outside := by
      refine ⟨_, outside?_spreadSpans text, ?_⟩
      rw [outside?_spreadSpans, hpieces, Piece.outside_renamed, hscan]
    again := resolve_again h }

/-- A library with a single fragment under a dotted path. -/
def signedIn : Library :=
  ⟨[⟨"auth.user", "on User {id}"⟩]⟩

/-- A string that looks like a spread stays as it is. The real spread of the same path, in the
selection set, is written by flat name. -/
theorem rewritingLaws_signedIn : signedIn.RewritingLaws
    "query \x7bme(id: \"...auth.user\") {...auth.user}\x7d"
    ⟨"query \x7bme(id: \"...auth.user\") {... auth_user}\x7d", ["auth_user"]⟩ := by
  -- The search runs over the spreads of the text, of which there is one
  have hpaths : spreadPaths (scanText
      "query \x7bme(id: \"...auth.user\") {...auth.user}\x7d").lexemes = ["auth.user"] := by
    decide +kernel
  have htext : String.ofList
      (resolveSpreads (scanText "query \x7bme(id: \"...auth.user\") {...auth.user}\x7d")) =
        "query \x7bme(id: \"...auth.user\") {... auth_user}\x7d" := by
    decide +kernel
  have hfind : signedIn.find? "auth.user" = some ⟨"auth.user", "on User {id}"⟩ := by
    decide +kernel
  have hbelow : Fragment.spreadPaths ⟨"auth.user", "on User {id}"⟩ = [] := by decide +kernel
  have hname : Fragment.flatName ⟨"auth.user", "on User {id}"⟩ = "auth_user" := by
    decide +kernel
  have hneeds : signedIn.needs [] ["auth.user"] [] = .ok ["auth_user"] := by
    rw [needs_of_no_spreads hfind hbelow, hname]
  exact rewritingLaws_resolve (by rw [resolve, hpaths, hneeds, htext]; rfl)

end Library

end QueryWeave
