import QueryWeave.Fragment.Library
import QueryWeave.Names

/-!
# Spread Resolution

What a text needs from a library: every fragment it spreads, and every fragment those spread in
turn, each once and behind all that it spreads itself. The search walks depth first along the
spreads. It ends because every step down visits a fragment that is not being visited yet, and a
library holds finitely many.
-/

namespace QueryWeave

/-! ## §1 The measure of the search -/

/-- The number of fragments of a library that are not being visited. The search goes down only to
such fragments, and along a row of paths otherwise; both together end it. -/
def Library.unvisited (lib : Library) (visiting : List String) : Nat :=
  (lib.fragments.filter fun f => f.flatName ∉ visiting).length

/-- A fragment found in a library belongs to it. -/
theorem Library.mem_of_find? {lib : Library} {path : String} {f : Fragment}
    (h : lib.find? path = some f) : f ∈ lib.fragments :=
  List.mem_of_find?_eq_some h

/-- Visiting one more fragment leaves fewer unvisited. -/
theorem Library.unvisited_lt {lib : Library} {visiting : List String} {f : Fragment}
    (hmem : f ∈ lib.fragments) (hnew : f.flatName ∉ visiting) :
    lib.unvisited (visiting ++ [f.flatName]) < lib.unvisited visiting := by
  unfold unvisited
  generalize lib.fragments = fragments at hmem
  -- What is unvisited afterwards was unvisited before, and is not `f`
  have hsplit : fragments.filter (fun g => g.flatName ∉ visiting ++ [f.flatName]) =
      (fragments.filter fun g => g.flatName ∉ visiting).filter
        fun g => g.flatName ≠ f.flatName := by
    rw [List.filter_filter]
    congr 1
    funext g
    by_cases h : g.flatName ∈ visiting <;> simp [h]
  rw [hsplit]
  refine List.length_filter_lt_length_iff_exists.2 ⟨f, ?_, by simp⟩
  exact List.mem_filter.2 ⟨hmem, by simpa using hnew⟩

/-! ## §2 The search -/

/-- The cycle that a path of fragments closes by coming back to `name`. What led to the cycle is not
part of it. -/
def cycleFrom (visiting : List String) (name : String) : List String :=
  visiting.dropWhile (· ≠ name) ++ [name]

/-- Add what `paths` need to the flat names in `used`, while the fragments named in `visiting` are
being visited.

A fragment is added behind everything below it, so that a list of what is needed defines each
fragment after those that it spreads. Whether a fragment is used already is asked before whether it
is being visited; neither can be true of both. -/
def Library.needs (lib : Library) (visiting : List String) (paths used : List String) :
    Except CompileError (List String) :=
  match paths with
  | [] => .ok used
  | path :: rest =>
    match _hfind : lib.find? path with
    | none => .error (.fragmentNotFound path)
    | some f =>
      if f.flatName ∈ used then lib.needs visiting rest used
      else if _hnew : f.flatName ∈ visiting then
        .error (.fragmentCycle (cycleFrom visiting f.flatName))
      else
        -- First what the body spreads, and the fragment itself behind that
        match lib.needs (visiting ++ [f.flatName]) f.spreadPaths used with
        | .error e => .error e
        | .ok below => lib.needs visiting rest (Names.add below f.flatName)
termination_by (lib.unvisited visiting, paths.length)
decreasing_by
  · exact Prod.Lex.right _ (by simp)
  · -- The step down visits one fragment more; the other two calls leave a shorter row
    exact Prod.Lex.left _ _ (Library.unvisited_lt (Library.mem_of_find? _hfind) _hnew)
  · exact Prod.Lex.right _ (by simp)

/-! ## §3 Resolution -/

/-- A text with its spreads resolved. -/
structure Resolved where
  /-- The text with every spread written as `... ` and a flat name. -/
  text : String
  /-- The flat names of the fragments needed, each behind those it spreads. -/
  used : List String
  deriving Repr, DecidableEq

/-- The lexemes of a spread of a flat name, behind the gap of `dots`. A blank stands in between,
whatever the author wrote there. -/
def spreadRow (dots : Lexeme) (flat : List Char) : List Lexeme :=
  [dots, ⟨[' '], .name, flat⟩]

/-- A piece with its spread written by flat name, and all else as it was. -/
def Piece.resolve : Piece → List Lexeme
  | .single l => [l]
  | .spread s => spreadRow s.dots (flattenChars s.pathText)

/-- A text with its spreads written by flat name. -/
def resolveSpreads (s : Scan) : List Char :=
  Lexeme.charsOf ((pieces s.lexemes).flatMap Piece.resolve) ++ s.trailer

/-- Resolve the spreads of a text. Fails if a fragment that is needed is missing, or needs itself.

The bodies need no resolving, since they were flattened when they were registered; the list of what
is used is all that comes of them here. -/
def Library.resolve (lib : Library) (text : String) : Except CompileError Resolved :=
  let scan := scanText text
  (lib.needs [] (spreadPaths scan.lexemes) []).map fun used =>
    ⟨String.ofList (resolveSpreads scan), used⟩

end QueryWeave
