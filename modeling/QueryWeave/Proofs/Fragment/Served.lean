import QueryWeave.Proofs.Bytes.Sites
import QueryWeave.Proofs.Fragment.Condition
import QueryWeave.Proofs.Fragment.Reachable
import QueryWeave.Proofs.Lexeme.Written
import QueryWeave.Proofs.Operation.Compile

/-!
# Spreads That Are Served

What resolution makes of a spread that was found in a text, once a fragment is registered under its
path. The spread is a text of its own, and spreads that path alone; so it can be resolved by itself.
A text is resolved exactly if each of its spreads is, and a spread of a fragment that spreads
nothing is always resolved. It is written by the flat name of its path, where it stood.

- `Library.find?_run_of_path`: a fragment stays until its path is registered again.
- `Library.exists_resolve_iff_alone`: a text is resolved exactly if each of its spreads is.
- `spreadLaws`: what is found of the spreads of a text, and what resolution makes of them.
-/

namespace QueryWeave

/-! ## §1 Fragments that spread nothing -/

/-- A stored body spreads what the body spread, by flat name. -/
theorem Fragment.spreadPaths_stored (pair : String × String) :
    (Fragment.stored pair).spreadPaths = (pathsSpread pair.2).map flattenPath := by
  rw [spreadPaths, row, scanText_stored]
  exact (flattened_flattened pair.2.toList).paths

namespace Library

/-- Whether no other path with the flat name of a path is registered. -/
def FreeFor (lib : Library) (path : String) : Prop :=
  ∀ f ∈ lib.fragments, f.flatName = flattenPath path → f.path = path

/-- A body that begins with its type condition is accepted under a path that collides with none. -/
theorem FreeFor.exists_register {lib : Library} {path body : String} (h : lib.FreeFor path)
    (hcondition : beginsWithCondition (scanText body).lexemes = true) :
    ∃ next, lib.register path body = .ok next := by
  rw [register]
  cases hfind : lib.find? path with
  | none => simp [hcondition]
  | some old =>
    have hpath : old.path = path := h old (lib.mem_of_find? hfind) (lib.flatName_of_find? hfind)
    simp [hcondition, hpath]

variable {lib : Library} {path : String} {f : Fragment}

/-- A fragment stays where it is when another path is registered: a path that would take its place
is rejected. -/
theorem find?_register_of_path {next : Library} {other body : String}
    (hfind : lib.find? path = some f) (hpath : f.path = path) (hother : other ≠ path)
    (h : lib.register other body = .ok next) : next.find? path = some f := by
  by_cases hflat : flattenPath other = flattenPath path
  · -- The two paths collide, so the other one was not accepted
    have hfound : lib.find? other = some f := by
      rw [← lib.find?_flattenPath other, hflat, lib.find?_flattenPath, hfind]
    obtain ⟨hcondition, -⟩ := register_inversion h
    rw [register, hfound] at h
    simp [hcondition, hpath, hother.symm] at h
  · rw [find?_register_of_ne h hflat, hfind]

theorem find?_registerAll_of_path {bodies : List (String × String)}
    (hfind : lib.find? path = some f) (hpath : f.path = path)
    (hbodies : path ∉ bodies.map Prod.fst) : (lib.registerAll bodies).1.find? path = some f := by
  induction bodies generalizing lib with
  | nil => exact hfind
  | cons pair rest ih =>
    obtain ⟨other, body⟩ := pair
    simp only [List.map_cons, List.mem_cons, not_or] at hbodies
    obtain ⟨hother, hrest⟩ := hbodies
    rw [registerAll]
    cases hregister : lib.register other body with
    | error e =>
      -- The call ends here, with what was registered before
      exact hfind
    | ok next => exact ih (find?_register_of_path hfind hpath (Ne.symm hother) hregister) hrest

/-- **A fragment stays where it is through all calls that do not register its path again.** -/
theorem find?_run_of_path {calls : List RegistryCall} (hfind : lib.find? path = some f)
    (hpath : f.path = path) (hcalls : ∀ call ∈ calls, path ∉ call.bodies.map Prod.fst) :
    (lib.run calls).find? path = some f := by
  induction calls generalizing lib with
  | nil => exact hfind
  | cons call rest ih =>
    obtain ⟨hcall, hrest⟩ := List.forall_mem_cons.1 hcalls
    rw [run]
    apply ih _ hrest
    rw [call_eq_registerAll]
    exact find?_registerAll_of_path hfind hpath hcall

end Library

/-! ## §2 Spreads by themselves -/

/-- There is no string in a spread. -/
theorem Spread.Formed.kind_ne_string {s : Spread} (hs : s.Formed) :
    ∀ l ∈ s.row, l.kind ≠ .stringValue := by
  intro l hl
  rcases List.mem_cons.1 hl with rfl | hl
  · simp [hs.dots]
  rcases List.mem_cons.1 hl with rfl | hl
  · simp [kind_of_beginsPath hs.head]
  · rcases kind_of_mem_segmentRow hs.segments l hl with hkind | hkind <;> simp [hkind]

/-- A spread by itself is one piece. -/
theorem Spread.Formed.pieces_regap {s : Spread} (hs : s.Formed) (gap : List Char) :
    pieces (Lexeme.regap gap s.row) = [.spread { s with dots := { s.dots with gap } }] := by
  have hdots : ({ s.dots with gap } : Lexeme).kind = .ellipsis := hs.dots
  show pieces ({ s.dots with gap } :: s.head :: Spread.segmentRow s.segments) = _
  rw [pieces_cons_spread hdots hs.head, takeSegments_segmentRow hs.segments, pieces_nil]

section Alone

variable {cs : List Char} {s : Spread}

/-- The text of a spread is read as its row, without the gap in front. -/
theorem scanText_alone (hs : s ∈ spreads (scan cs).lexemes) :
    scanText (String.ofList (Lexeme.spanText s.row)) = ⟨Lexeme.regap [] s.row, []⟩ := by
  obtain ⟨behind, hspells⟩ := spells_row_of_mem_spreads (spells_scan cs).1 hs
  have hkinds := (formed_of_mem_spreads hs).kind_ne_string
  -- Only an open string needs what follows it, so the row is read back in front of nothing
  have hread : ReadBack s.row :=
    readBack_of_spells hspells fun l hl => hspells.whole_of_kind l hl (hkinds l hl)
  have hscan := scan_charsOf (hread.regap isGap_nil [] rfl) rfl
  have hne : s.row ≠ [] := List.cons_ne_nil _ _
  rw [List.append_nil, charsOf_regap hne, List.nil_append] at hscan
  rw [scanText, String.toList_ofList, hscan]

/-- It spreads the path of the spread, and no other. -/
theorem pathsSpread_alone (hs : s ∈ spreads (scan cs).lexemes) :
    pathsSpread (String.ofList (Lexeme.spanText s.row)) = [s.path] := by
  rw [pathsSpread, scanText_alone hs, spreadPaths, spreads,
    (formed_of_mem_spreads hs).pieces_regap]
  rfl

/-- It is written as three dots, a blank, and the flat name. -/
theorem resolveSpreads_alone (hs : s ∈ spreads (scan cs).lexemes) :
    String.ofList (resolveSpreads (scanText (String.ofList (Lexeme.spanText s.row)))) =
      "... " ++ flattenPath s.path := by
  have hformed := formed_of_mem_spreads hs
  obtain ⟨behind, hspells⟩ := spells_row_of_mem_spreads (spells_scan cs).1 hs
  have hthree := Bytes.text_of_ellipsis hspells List.mem_cons_self hformed.dots
  apply String.toList_inj.1
  rw [resolveSpreads, scanText_alone hs, hformed.pieces_regap]
  simp [Piece.resolve, spreadRow, hthree, flattenPath, Spread.path, Spread.pathText,
    Spread.pathRow]

end Alone

namespace Library

/-- Whether the text at a site is resolved by itself, as though it were all of the text. -/
def ResolvesAlone (lib : Library) (source : String) (site : SpreadSite) : Prop :=
  ∃ text resolved, Bytes.slice? source.toList site.span = some text ∧
    lib.resolve (String.ofList text) = .ok resolved

variable {lib : Library} {source : String} {site : SpreadSite}

/-- The text at a site is resolved if every name is registered that its path reaches, and none of
them lies on a cycle. -/
theorem resolvesAlone_iff (hsite : site ∈ spreadSites (scanText source).lexemes) :
    lib.ResolvesAlone source site ↔ ∀ name, lib.Reaches [site.path] name →
      (∃ f, lib.find? name = some f) ∧ ¬ Relation.TransGen lib.Spreads name name := by
  obtain ⟨s, hs, hat⟩ := Bytes.exists_foundAt (Bytes.readAt_scan source.toList) site hsite
  rw [hat.path, ← pathsSpread_alone hs, ← exists_resolve_iff, ResolvesAlone]
  constructor
  · rintro ⟨text, resolved, htext, hresolve⟩
    rw [hat.text] at htext
    cases htext
    exact ⟨resolved, hresolve⟩
  · rintro ⟨resolved, hresolve⟩
    exact ⟨_, resolved, hat.text, hresolve⟩

/-- **A text is resolved exactly if each of its spreads is, by itself.** -/
theorem exists_resolve_iff_alone (lib : Library) (source : String) :
    (∃ resolved, lib.resolve source = .ok resolved) ↔
      ∀ site ∈ spreadSites (scanText source).lexemes, lib.ResolvesAlone source site := by
  have hpaths : pathsSpread source = (spreadSites (scanText source).lexemes).map SpreadSite.path :=
    (Bytes.map_path_spreadSites _).symm
  rw [exists_resolve_iff]
  constructor
  · intro hall site hsite
    refine (resolvesAlone_iff hsite).2 fun name hname => hall name (hname.mono fun path hpath => ?_)
    rw [List.mem_singleton.1 hpath, hpaths]
    exact List.mem_map_of_mem hsite
  · rintro hall name ⟨path, hpath, hleads⟩
    -- The name is reached from the path of one site
    rw [hpaths] at hpath
    obtain ⟨site, hsite, rfl⟩ := List.mem_map.1 hpath
    exact (resolvesAlone_iff hsite).1 (hall site hsite) name ⟨_, List.mem_singleton_self _, hleads⟩

/-- A spread of a fragment that spreads nothing is resolved by itself, and needs that fragment
alone. -/
theorem resolve_alone_of_leaf {f : Fragment}
    (hsite : site ∈ spreadSites (scanText source).lexemes) (hfind : lib.find? site.path = some f)
    (hleaf : f.spreadPaths = []) :
    ∃ text, Bytes.slice? source.toList site.span = some text ∧
      lib.resolve (String.ofList text) =
        .ok ⟨"... " ++ flattenPath site.path, [flattenPath site.path]⟩ := by
  obtain ⟨s, hs, hat⟩ := Bytes.exists_foundAt (Bytes.readAt_scan source.toList) site hsite
  refine ⟨_, hat.text, ?_⟩
  rw [hat.path] at hfind ⊢
  rw [resolve_of_leaf (pathsSpread_alone hs) hfind hleaf, resolveSpreads_alone hs,
    lib.flatName_of_find? hfind]

end Library

/-! ## §3 Spreads in their text -/

namespace Bytes

/-- The source from `last` on, with three dots, a blank and the flat name of the path at every
site. -/
def writeFlat? (source : List Char) (last : Nat) : List SpreadSite → Option (List Char)
  | [] => after? source last
  | site :: rest => do
    let kept ← slice? source ⟨last, site.span.start⟩
    let later ← writeFlat? source site.span.stop rest
    return kept ++ "... ".toList ++ (flattenPath site.path).toList ++ later

/-- The pieces of a row are resolved where their sites are. So a resolved text is the source with
the slices at the sites replaced, and nothing needs to be said of lexemes. -/
theorem writeFlat?_sites {source pending behind : List Char} {last : Nat} {row : List Lexeme}
    (h : after? source last = some (pending ++ (Lexeme.charsOf row ++ behind)))
    (hspelled : Lexeme.Spells row behind) :
    writeFlat? source last (Piece.sites (last + byteLength pending) (pieces row)) =
      some (pending ++ (Lexeme.charsOf ((pieces row).flatMap Piece.resolve) ++ behind)) := by
  induction row using pieces_induction generalizing last pending with
  | nil => simpa [Piece.sites, writeFlat?] using h
  | single l rest hsingle ih =>
    -- The lexeme becomes pending
    have hpending : after? source last =
        some (pending ++ l.chars ++ (Lexeme.charsOf rest ++ behind)) := by
      simpa [Lexeme.chars] using h
    have hrest := ih hpending hspelled.2.2
    rw [pieces_cons_single hsingle, Piece.sites]
    simpa [Piece.row, Piece.resolve, Lexeme.chars, Nat.add_assoc] using hrest
  | spread dots head rest hdots hhead ih =>
    -- What is pending is copied through the gap of the dots
    obtain ⟨hkept, -, hnext⟩ := slices_at_spread h
    have hthree := text_of_ellipsis hspelled List.mem_cons_self hdots
    -- Nothing is pending behind the spread
    have hrest := @ih [] _ hnext (spells_behind_path hspelled)
    rw [byteLength_nil, Nat.add_zero] at hrest
    rw [pieces_cons_spread hdots hhead, Piece.sites, ← stop_siteAt, writeFlat?, hkept, hrest]
    simp [Piece.resolve, spreadRow, hthree, toList_flattenPath_siteAt]

/-- A resolved text is the text with the flat name at every site. -/
theorem writeFlat?_of_resolve {lib : Library} {source : String} {resolved : Resolved}
    (h : lib.resolve source = .ok resolved) :
    writeFlat? source.toList 0 (spreadSites (scanText source).lexemes) =
      some resolved.text.toList := by
  have hread := readAt_scan source.toList
  have hwrite := @writeFlat?_sites _ [] _ 0 _ hread.rest hread.spelled
  rw [byteLength_nil, Nat.add_zero] at hwrite
  rw [(Library.dependenciesFirst_of_resolve h).1, String.toList_ofList]
  exact hwrite

end Bytes

/-! ## §4 Spreads of registered fragments -/

/-- What resolution makes of the spread at a site of a text: by itself, as a part of the text, and
in what is written for the text. -/
structure Library.Serves (lib : Library) (source : String) (site : SpreadSite) : Prop where
  /-- The spread is resolved by itself: three dots, a blank, and the path with underscores. -/
  alone : ∃ text, Bytes.slice? source.toList site.span = some text ∧
    lib.resolve (String.ofList text) =
      .ok ⟨"... " ++ flattenPath site.path, [flattenPath site.path]⟩
  /-- In the text it never stands in the way: all depends on the spreads of other paths. -/
  within : (∃ resolved, lib.resolve source = .ok resolved) ↔
    ∀ other ∈ spreadSites (scanText source).lexemes, other.path ≠ site.path →
      lib.ResolvesAlone source other
  /-- Where the text is resolved, the fragment is needed, and every spread is written by flat
  name. -/
  written : ∀ resolved, lib.resolve source = .ok resolved →
    flattenPath site.path ∈ resolved.used ∧
      Bytes.writeFlat? source.toList 0 (spreadSites (scanText source).lexemes) =
        some resolved.text.toList

/-- A spread of a fragment that spreads nothing is served. Such a fragment is on no cycle and needs
nothing, so no other fragment can make its resolution fail. -/
theorem Library.serves_of_leaf {lib : Library} {source : String} {site : SpreadSite} {f : Fragment}
    (hsite : site ∈ spreadSites (scanText source).lexemes) (hfind : lib.find? site.path = some f)
    (hleaf : f.spreadPaths = []) : lib.Serves source site := by
  constructor
  case alone => exact resolve_alone_of_leaf hsite hfind hleaf
  case within =>
    rw [exists_resolve_iff_alone]
    refine ⟨fun hall other hother _ => hall other hother, fun hothers other hother => ?_⟩
    by_cases hpath : other.path = site.path
    · -- The other site spreads the same fragment
      rw [← hpath] at hfind
      obtain ⟨text, htext, hresolve⟩ := resolve_alone_of_leaf hother hfind hleaf
      exact ⟨text, _, htext, hresolve⟩
    · exact hothers other hother hpath
  case written =>
    intro resolved hresolve
    refine ⟨?_, Bytes.writeFlat?_of_resolve hresolve⟩
    have hspread : site.path ∈ QueryWeave.spreadPaths (scanText source).lexemes := by
      rw [← Bytes.map_path_spreadSites]
      exact List.mem_map_of_mem hsite
    obtain ⟨g, hg, hused⟩ := (dependenciesFirst_of_resolve hresolve).2.2 site.path hspread
    rwa [lib.flatName_of_find? hg] at hused

/-- What is found of the spreads of a text, and what resolution makes of them. The laws of sites say
that every spread is found once, and where it stands; the law here closes the circle, from the path
that was found to the fragment that is registered under it. -/
structure SpreadLaws (source : String) : Prop extends Bytes.SiteLaws source.toList where
  /-- A body that begins with its type condition and spreads nothing is accepted under the path of a
  spread, unless another path with the flat name is registered. From then on the spread is served,
  whatever is registered under other paths. -/
  served : ∀ site ∈ spreadSites (scanText source).lexemes, ∀ (lib : Library) (body : String),
    beginsWithCondition (scanText body).lexemes = true → pathsSpread body = [] →
      lib.FreeFor site.path →
        ∃ next, lib.register site.path body = .ok next ∧
          ∀ calls, (∀ call ∈ calls, site.path ∉ call.bodies.map Prod.fst) →
            (next.run calls).Serves source site

/-- **Every named spread of a text is found once, and is served once its fragment is registered.**
Nothing is assumed of the text: what looks like a spread inside a string or a comment is no site. -/
theorem spreadLaws (source : String) : SpreadLaws source := by
  refine { Bytes.siteLaws source.toList with served := ?_ }
  intro site hsite lib body hcondition hnone hfree
  obtain ⟨next, hregister⟩ := hfree.exists_register hcondition
  refine ⟨next, hregister, fun calls hcalls => ?_⟩
  -- The fragment that was stored is still there after the calls
  have hfind := Library.find?_run_of_path (Library.find?_of_register hregister)
    (Fragment.path_stored _) hcalls
  have hleaf : (Fragment.stored (site.path, body)).spreadPaths = [] := by
    rw [Fragment.spreadPaths_stored, hnone, List.map_nil]
  exact Library.serves_of_leaf hsite hfind hleaf

end QueryWeave
