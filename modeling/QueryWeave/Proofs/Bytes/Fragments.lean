import QueryWeave.Proofs.Bytes.Spreads
import QueryWeave.Proofs.Fragment.Registered

/-!
# Fragments by Offsets

Registering a body and resolving the spreads of a text are walks along spread sites. A walk
remembers where the last site ended; at the next site it copies the source from there to where the
replaced part begins, and behind the last site it copies the rest. What is between two sites is
*pending*: it has been passed but not yet copied.

- `register?_eq`, `resolve?_eq`: the walks take only slices that exist, and give what the library
  gives.
-/

namespace QueryWeave.Bytes

/-! ## §1 Walks along spread sites

Both ways to rewrite spreads walk along their sites, and copy what is between. What is pending when
a site is met has not been sliced yet; the statements say what comes of it. -/

/-- The tokens of a text and the spreads among them. -/
def spreadSites? (source : List Char) : Option (List SpreadSite) := do
  findSpreads? source (← tokenize? source)

theorem spreadSites?_eq (source : List Char) :
    spreadSites? source = some (spreadSites (scan source).lexemes) := by
  rw [spreadSites?, tokenize?_eq]
  exact findSpreads?_eq (readAt_scan source)

theorem map_path_sites (offset : Nat) (ps : List Piece) :
    (Piece.sites offset ps).map SpreadSite.path = (ps.filterMap Piece.spread?).map Spread.path := by
  induction ps generalizing offset with
  | nil => rfl
  | cons piece rest ih =>
    cases piece with
    | single l => exact ih _
    | spread s => exact congrArg (s.path :: ·) (ih _)

theorem map_path_spreadSites (row : List Lexeme) :
    (spreadSites row).map SpreadSite.path = spreadPaths row :=
  map_path_sites 0 (pieces row)

theorem toList_flattenPath_siteAt (offset : Nat) (s : Spread) :
    (flattenPath (s.siteAt offset).path).toList = flattenChars s.pathText := by
  simp [flattenPath, Spread.siteAt, Spread.path]

/-- What a walk finds at a spread, with `pending` in front of it: the source can be copied to the
path and to the whole spread, and it goes on behind the path. -/
theorem slices_at_spread {source pending behind : List Char} {last : Nat} {dots head : Lexeme}
    {rest : List Lexeme}
    (h : after? source last = some (pending ++ (Lexeme.charsOf (dots :: head :: rest) ++ behind))) :
    let site := Spread.siteAt (last + byteLength pending) ⟨dots, head, (takeSegments rest).1⟩
    slice? source ⟨last, site.span.start⟩ = some (pending ++ dots.gap) ∧
      slice? source ⟨last, site.pathSpan.start⟩ = some (pending ++ (dots.chars ++ head.gap)) ∧
      after? source site.span.stop = some (Lexeme.charsOf (takeSegments rest).2 ++ behind) := by
  intro site
  let s : Spread := ⟨dots, head, (takeSegments rest).1⟩
  let after := Lexeme.charsOf (takeSegments rest).2 ++ behind
  have hrow : pending ++ (Lexeme.charsOf (dots :: head :: rest) ++ behind) =
      pending ++ dots.gap ++ dots.text ++ head.gap ++ s.pathText ++ after := by
    have hrest := congrArg Lexeme.charsOf (takeSegments_append rest)
    rw [Lexeme.charsOf_append] at hrest
    simp [← hrest, Spread.pathText, Spread.pathRow, Lexeme.spanText, s, after]
  rw [hrow] at h
  -- Three places in the same text: in front of the dots, in front of the path, and behind it
  refine ⟨slice?_of_split _ (dots.text ++ head.gap ++ s.pathText ++ after) h ?_ ?_,
    slice?_of_split _ (s.pathText ++ after) h ?_ ?_,
    after?_of_split (pending ++ dots.chars ++ head.gap ++ s.pathText) after h ?_ ?_⟩
  all_goals simp [site, Spread.siteAt, Lexeme.spanAt, Lexeme.chars, Nat.add_assoc, s]

/-! ## §2 Registering a body -/

/-- Whether the tokens of a source begin with `on` and a type name. -/
def beginsWithCondition? (source : List Char) : List Token → Option Bool
  | on :: typeName :: _ =>
    if on.kind = .name then do
      let word ← on.text? source
      return word = ['o', 'n'] && typeName.kind = .name
    else return false
  | _ => return false

/-- The source from `last` on, with the paths of the sites flattened. -/
def flattenFrom? (source : List Char) (last : Nat) : List SpreadSite → Option (List Char)
  | [] => after? source last
  | site :: rest => do
    let kept ← slice? source ⟨last, site.pathSpan.start⟩
    let later ← flattenFrom? source site.pathSpan.stop rest
    return kept ++ (flattenPath site.path).toList ++ later

/-- Register a body under a path. The checks come in the order of the program: the form of the body
first, then the path that may be taken, and the body is only rewritten behind both. -/
def register? (lib : Library) (path body : String) : Option (Except CompileError Library) := do
  let tokens ← tokenize? body.toList
  if !(← beginsWithCondition? body.toList tokens) then
    return .error (.malformedFragment path body)
  else
    let accept : Option (Except CompileError Library) := do
      let sites ← findSpreads? body.toList tokens
      let flat ← flattenFrom? body.toList 0 sites
      return .ok ⟨Library.place ⟨path, String.ofList flat⟩ lib.fragments⟩
    match lib.find? path with
    | some old =>
      if old.path ≠ path then return .error (.flatNameCollision path old.path (flattenPath path))
      else accept
    | none => accept

theorem beginsWithCondition?_eq {source behind : List Char} {row : List Lexeme}
    (h : ReadAt source 0 row behind) :
    beginsWithCondition? source (tokensOf 0 row) = some (beginsWithCondition row) := by
  match row, h with
  | [], _ => rfl
  | [on], _ => rfl
  | on :: typeName :: rest, h =>
    simp only [tokensOf_cons, beginsWithCondition?, text?_eq h, beginsWithCondition, Lexeme.isName]
    by_cases hname : on.kind = .name <;> simp [hname]

/-- The walk copies what is pending, and flattens the spreads of the row behind it. What is pending
was passed, but is not written yet: it is sliced out together when the next spread is met. -/
theorem flattenFrom?_eq {source pending behind : List Char} {last : Nat} {row : List Lexeme}
    (h : after? source last = some (pending ++ (Lexeme.charsOf row ++ behind))) :
    flattenFrom? source last (Piece.sites (last + byteLength pending) (pieces row)) =
      some (pending ++ (Lexeme.charsOf ((pieces row).flatMap Piece.flatten) ++ behind)) := by
  induction row using pieces_induction generalizing last pending with
  | nil => simpa [Piece.sites, flattenFrom?] using h
  | single l rest hsingle ih =>
    -- The lexeme becomes pending
    have hpending : after? source last =
        some (pending ++ l.chars ++ (Lexeme.charsOf rest ++ behind)) := by
      simpa [Lexeme.chars] using h
    have hrest := ih hpending
    rw [pieces_cons_single hsingle, Piece.sites]
    simpa [Piece.row, Piece.flatten, Lexeme.chars, Nat.add_assoc] using hrest
  | spread dots head rest hdots hhead ih =>
    obtain ⟨-, hkept, hnext⟩ := slices_at_spread h
    -- Nothing is pending behind the path
    have hrest := @ih [] _ hnext
    rw [byteLength_nil, Nat.add_zero] at hrest
    rw [pieces_cons_spread hdots hhead, Piece.sites, ← stop_siteAt, flattenFrom?, stop_pathSpan,
      hkept, hrest]
    simp [Piece.flatten, Lexeme.respell, Lexeme.chars, toList_flattenPath_siteAt]

/-- **Registering a body takes only slices that exist, and gives what the library gives.** -/
theorem register?_eq (lib : Library) (path body : String) :
    register? lib path body = some (lib.register path body) := by
  have hread := readAt_scan body.toList
  -- Nothing is pending at the beginning of a body
  have hflat : flattenFrom? body.toList 0 (spreadSites (scan body.toList).lexemes) =
      some (flattenSpreads (scan body.toList)) := by
    have hstart : after? body.toList 0 = some (Lexeme.charsOf (scan body.toList).lexemes ++
        (scan body.toList).trailer) := hread.rest
    exact @flattenFrom?_eq _ [] _ 0 _ hstart
  have hsites : findSpreads? body.toList (tokensOf 0 (scan body.toList).lexemes) =
      some (spreadSites (scan body.toList).lexemes) := findSpreads?_eq hread
  simp only [register?, Library.register, tokenize?_eq, beginsWithCondition?_eq hread, hsites,
    hflat, Option.bind_eq_bind, Option.bind_some, pure, scanText]
  by_cases hform : beginsWithCondition (scan body.toList).lexemes = true
  · cases lib.find? path with
    | none => simp [hform]
    | some old => by_cases hpath : old.path = path <;> simp [hform, hpath]
  · simp [hform]

/-! ## §3 Resolving a text -/

/-- The cycle that the names being visited close by coming back to the one at `start`. -/
def cycle? (visiting : List String) (start : Nat) (name : String) : Option (List String) := do
  return (← range? visiting start visiting.length) ++ [name]

/-- Add what `paths` need to the flat names in `used`, reading every body by offsets. The search is
that of the library; it differs in that the sites of a body come from slices. -/
def needs? (lib : Library) (visiting paths used : List String) :
    Option (Except CompileError (List String)) :=
  match paths with
  | [] => some (.ok used)
  | path :: rest =>
    match _hfind : lib.find? path with
    | none => some (.error (.fragmentNotFound path))
    | some f =>
      if f.flatName ∈ used then needs? lib visiting rest used
      else
        match _hnew : visiting.findIdx? (· = f.flatName) with
        | some start => (cycle? visiting start f.flatName).map fun cycle =>
          .error (.fragmentCycle cycle)
        | none =>
          match spreadSites? f.body.toList with
          | none => none
          | some sites =>
            match needs? lib (visiting ++ [f.flatName]) (sites.map SpreadSite.path) used with
            | none => none
            | some (.error e) => some (.error e)
            | some (.ok below) => needs? lib visiting rest (Names.add below f.flatName)
termination_by (lib.unvisited visiting, paths.length)
decreasing_by
  · exact Prod.Lex.right _ (by simp)
  · have hnot : f.flatName ∉ visiting := by
      intro hmem
      have hnone := List.findIdx?_eq_none_iff.1 _hnew _ hmem
      simp at hnone
    exact Prod.Lex.left _ _ (Library.unvisited_lt (Library.mem_of_find? _hfind) hnot)
  · exact Prod.Lex.right _ (by simp)

/-- The source from `last` on, with the spreads at the sites written by flat name, and what the
spreads need. A spread is looked up before anything is copied, so a text whose first spread is
unknown is refused at once. -/
def resolveFrom? (lib : Library) (source : List Char) (last : Nat) (used : List String) :
    List SpreadSite → Option (Except CompileError (List Char × List String))
  | [] => do
    let kept ← after? source last
    return .ok (kept, used)
  | site :: rest =>
    match lib.lookup site.path with
    | .error e => some (.error e)
    | .ok f => do
      let kept ← slice? source ⟨last, site.span.start⟩
      match ← needs? lib [] [site.path] used with
      | .error e => return .error e
      | .ok used =>
        let later ← resolveFrom? lib source site.span.stop used rest
        return later.map fun (text, used) =>
          (kept ++ '.' :: '.' :: '.' :: ' ' :: f.flatName.toList ++ text, used)

def resolve? (lib : Library) (text : String) : Option (Except CompileError Resolved) := do
  let sites ← spreadSites? text.toList
  let resolved ← resolveFrom? lib text.toList 0 [] sites
  return resolved.map fun (text, used) => ⟨String.ofList text, used⟩

theorem cycle?_eq {visiting : List String} {start : Nat} {name : String}
    (h : visiting.findIdx? (· = name) = some start) :
    cycle? visiting start name = some (cycleFrom visiting name) := by
  obtain ⟨hlt, hindex⟩ := List.findIdx?_eq_some_iff_findIdx_eq.1 h
  have hdrop : visiting.dropWhile (· ≠ name) = visiting.drop start := by
    rw [List.dropWhile_eq_drop_findIdx_not, ← hindex]
    simp
  rw [cycle?, range?, if_pos ⟨by omega, by omega⟩, cycleFrom, hdrop, List.take_length]
  rfl

/-- Helper: a step of the search at a fragment that is not listed yet. -/
private theorem needs?_cons {lib : Library} {visiting used rest : List String} {path : String}
    {f : Fragment} (hfind : lib.find? path = some f) (hlisted : f.flatName ∉ used) :
    needs? lib visiting (path :: rest) used =
      if f.flatName ∈ visiting then some (.error (.fragmentCycle (cycleFrom visiting f.flatName)))
      else
        (needs? lib (visiting ++ [f.flatName]) f.spreadPaths used).bind fun
          | .error e => some (.error e)
          | .ok below => needs? lib visiting rest (Names.add below f.flatName) := by
  rw [needs?]
  split
  · simp_all
  · rename_i g heq
    rw [hfind] at heq
    cases heq
    rw [if_neg hlisted]
    split
    · -- The fragment is being visited: its place among those visited was found
      rename_i start hstart
      have hvisiting : f.flatName ∈ visiting := by
        by_contra hnot
        have hnone : visiting.findIdx? (· = f.flatName) = none := by
          rw [List.findIdx?_eq_none_iff]
          intro name hname
          have hne : name ≠ f.flatName := fun heq => hnot (heq ▸ hname)
          simpa using hne
        rw [hstart] at hnone
        cases hnone
      rw [if_pos hvisiting, cycle?_eq hstart]
      rfl
    · rename_i hnone
      have hvisiting : f.flatName ∉ visiting := by
        intro hmem
        simpa using List.findIdx?_eq_none_iff.1 hnone _ hmem
      rw [if_neg hvisiting, spreadSites?_eq]
      dsimp only
      rw [map_path_spreadSites]
      show _ = Option.bind (needs? lib (visiting ++ [f.flatName])
        (spreadPaths (scan f.body.toList).lexemes) used) _
      cases needs? lib (visiting ++ [f.flatName])
        (spreadPaths (scan f.body.toList).lexemes) used with
      | none => rfl
      | some below => cases below <;> rfl

/-- What the search needs is found by offsets, however deep it goes. Every body that the search
enters was written by the library, so its spreads are sliced out of a text that nobody has given. -/
theorem needs?_eq (lib : Library) (visiting paths used : List String) :
    needs? lib visiting paths used = some (lib.needs visiting paths used) := by
  -- The checked search branches as the search does, so the induction is on the latter
  fun_induction lib.needs visiting paths used with
  | case1 visiting used => rw [needs?]
  | case2 visiting used path rest hfind =>
    rw [needs?]
    split <;> simp_all
  | case3 visiting used path rest f hfind hlisted ih =>
    rw [needs?]
    split <;> simp_all
  | case4 visiting used path rest f hfind hlisted hvisiting =>
    rw [needs?_cons hfind hlisted, if_pos hvisiting]
  | case5 visiting used path rest f hfind hlisted hvisiting e hbelow ih =>
    rw [needs?_cons hfind hlisted, if_neg hvisiting, ih, hbelow]
    rfl
  | case6 visiting used path rest f hfind hlisted hvisiting below hbelow ihbelow ihrest =>
    rw [needs?_cons hfind hlisted, if_neg hvisiting, ihbelow, hbelow]
    exact ihrest

/-- What several paths need is found path by path. -/
theorem needs_cons (lib : Library) (visiting : List String) (path : String)
    (rest used : List String) :
    lib.needs visiting (path :: rest) used =
      (lib.needs visiting [path] used).bind fun used => lib.needs visiting rest used := by
  rw [Library.needs]
  -- A search for one path ends where the search for all of them goes on
  conv_rhs => rw [Library.needs]
  split
  · rfl
  · rename_i f hfind
    split
    · simp [Library.needs, Except.bind]
    · split
      · rfl
      · cases lib.needs (visiting ++ [f.flatName]) f.spreadPaths used <;>
          simp [Library.needs, Except.bind]

/-- Three dots are spelled so. -/
theorem text_of_ellipsis {row : List Lexeme} {behind : List Char} (h : Lexeme.Spells row behind)
    {l : Lexeme} (hl : l ∈ row) (hdots : l.kind = .ellipsis) : l.text = ['.', '.', '.'] := by
  obtain ⟨c, more, htext, hshape⟩ := h.whole_of_kind l hl (by simp [hdots])
  rw [hdots] at hshape
  obtain ⟨rfl, rfl⟩ := hshape
  exact htext

/-- Behind a path, the row goes on as it is spelled. -/
theorem spells_behind_path {dots head : Lexeme} {rest : List Lexeme} {behind : List Char}
    (h : Lexeme.Spells (dots :: head :: rest) behind) :
    Lexeme.Spells (takeSegments rest).2 behind := by
  have hrest := h.2.2.2.2
  rw [← takeSegments_append rest] at hrest
  exact (Lexeme.spells_append.1 hrest).2

/-- At a site, the walk looks up the fragment, adds what that needs, and goes on behind the site. An
error of the search ends the walk, and nothing is sliced behind it. -/
theorem resolveFrom?_site (lib : Library) {source kept : List Char} {last : Nat}
    (used : List String) {site : SpreadSite} {sites : List SpreadSite}
    {later : List String → Except CompileError (List Char × List String)}
    (hkept : slice? source ⟨last, site.span.start⟩ = some kept)
    (hlater : ∀ used, resolveFrom? lib source site.span.stop used sites = some (later used)) :
    resolveFrom? lib source last used (site :: sites) =
      some ((lib.needs [] [site.path] used).bind fun used =>
        (later used).map fun (text, used) =>
          (kept ++ '.' :: '.' :: '.' :: ' ' :: (flattenPath site.path).toList ++ text, used)) := by
  rw [resolveFrom?, hkept, needs?_eq, Library.lookup]
  cases hfind : lib.find? site.path with
  | none =>
    -- The search stops at the site as well
    have hneeds : lib.needs [] [site.path] used = .error (.fragmentNotFound site.path) := by
      rw [Library.needs]
      split <;> simp_all
    rw [hneeds]
    rfl
  | some f =>
    simp only [Option.bind_eq_bind, Option.bind_some, hlater, lib.flatName_of_find? hfind]
    cases lib.needs [] [site.path] used <;> rfl

/-- The walk copies what is pending, and resolves the spreads of the row behind it. It searches at
each spread for itself, with what was found so far; the search for all paths at once finds the same.
-/
theorem resolveFrom?_eq (lib : Library) {source pending behind : List Char} {last : Nat}
    {row : List Lexeme} {used : List String}
    (h : after? source last = some (pending ++ (Lexeme.charsOf row ++ behind)))
    (hspelled : Lexeme.Spells row behind) :
    resolveFrom? lib source last used (Piece.sites (last + byteLength pending) (pieces row)) =
      some ((lib.needs [] (spreadPaths row) used).map fun used =>
        (pending ++ (Lexeme.charsOf ((pieces row).flatMap Piece.resolve) ++ behind), used)) := by
  induction row using pieces_induction generalizing last pending used with
  | nil => simp [Piece.sites, resolveFrom?, h, spreadPaths, spreads, Library.needs, Except.map]
  | single l rest hsingle ih =>
    -- The lexeme becomes pending
    have hpending : after? source last =
        some (pending ++ l.chars ++ (Lexeme.charsOf rest ++ behind)) := by
      simpa [Lexeme.chars] using h
    have hrest := @ih _ _ used hpending hspelled.2.2
    have hpaths : spreadPaths (l :: rest) = spreadPaths rest :=
      congrArg (List.map Spread.path) (spreads_cons_single hsingle)
    rw [pieces_cons_single hsingle, Piece.sites, hpaths]
    simpa [Piece.row, Piece.resolve, Lexeme.chars, Nat.add_assoc] using hrest
  | spread dots head rest hdots hhead ih =>
    obtain ⟨hkept, -, hnext⟩ := slices_at_spread h
    have hthree := text_of_ellipsis hspelled (List.mem_cons_self ..) hdots
    have hpaths : spreadPaths (dots :: head :: rest) =
        Spread.path ⟨dots, head, (takeSegments rest).1⟩ :: spreadPaths (takeSegments rest).2 :=
      congrArg (List.map Spread.path) (spreads_cons_spread hdots hhead rest)
    -- Nothing is pending behind the path
    have hrest := fun used => @ih [] _ used hnext (spells_behind_path hspelled)
    simp only [byteLength_nil, Nat.add_zero] at hrest
    rw [pieces_cons_spread hdots hhead, Piece.sites, ← stop_siteAt, hpaths, List.flatMap_cons,
      Piece.resolve, resolveFrom?_site lib used hkept hrest, path_siteAt,
      needs_cons lib [] _ (spreadPaths (takeSegments rest).2)]
    congr 1
    cases lib.needs [] [Spread.path ⟨dots, head, (takeSegments rest).1⟩] used with
    | error e => rfl
    | ok used' =>
      simp only [Except.bind]
      cases lib.needs [] (spreadPaths (takeSegments rest).2) used' with
      | error e => rfl
      | ok all => simp [Except.map, flattenPath, Spread.path, spreadRow, hthree]

/-- **Resolving a text takes only slices that exist, and gives what the library gives.** -/
theorem resolve?_eq (lib : Library) (text : String) :
    resolve? lib text = some (lib.resolve text) := by
  have hread := readAt_scan text.toList
  have hwalk := @resolveFrom?_eq lib _ [] _ 0 _ [] hread.rest hread.spelled
  rw [byteLength_nil, Nat.add_zero] at hwalk
  rw [resolve?, spreadSites?_eq, Library.resolve]
  simp only [Option.bind_eq_bind, Option.bind_some]
  rw [spreadSites, hwalk]
  show _ = some ((lib.needs [] (spreadPaths (scan text.toList).lexemes) []).map _)
  cases lib.needs [] (spreadPaths (scan text.toList).lexemes) [] <;> rfl

end QueryWeave.Bytes
