import QueryWeave.Batch.Selection
import QueryWeave.Fragment.Library
import QueryWeave.Names

/-!
# Isolated Fragments

The fragment definitions of an entry. A fragment that references a variable, or spreads one that
does, cannot be shared between entries: the entry gets a copy under a name of its own, in which
variables and copied fragments go by the entry's names. Every other fragment is shared as it is.
-/

namespace QueryWeave

/-! ## §1 Copies -/

/-- The lexemes of a body in the entry's copy. Lexemes are renamed one by one: a body is stored with
flat spreads, so that the name behind an ellipsis is all of the path. -/
def copyRow (aliasName : String) (copied : List String) (before : Option Lexeme) :
    List Lexeme → List Lexeme
  | [] => []
  | l :: rest =>
    let renamed :=
      if l.isVariable then l.toEntryVariable aliasName
      else if namesCopy copied before l then l.toEntryName aliasName
      else l
    renamed :: copyRow aliasName copied (some l) rest

/-- The body of the entry's copy. -/
def copyBody (aliasName : String) (copied : List String) (body : String) : String :=
  let s := scanText body
  String.ofList (Lexeme.charsOf (copyRow aliasName copied none s.lexemes) ++ s.trailer)

/-! ## §2 The fragments of an entry -/

/-- The fragments of an entry. -/
structure EntryFragments where
  /-- Definitions under the names they are written by. -/
  definitions : Bindings String
  /-- The flat names of the fragments that were copied. -/
  copied : List String
  /-- The variables referenced in any of the bodies. -/
  referenced : List String
  deriving Repr, DecidableEq

namespace EntryFragments

def empty : EntryFragments := ⟨[], [], []⟩

/-- Add a fragment, all fragments that it spreads being there already.

That is why one pass is enough: whether a fragment depends on a variable is settled by its own body
and by what was decided about the fragments below it. -/
def add (aliasName : String) (known : EntryFragments) (f : Fragment) : EntryFragments :=
  let referenced := (f.row.filter Lexeme.isVariable).map Lexeme.variableName
  let seen := Names.addAll known.referenced referenced
  -- A body that spreads a copy is another one for every entry, as one with a variable is
  if !referenced.isEmpty || f.spreadPaths.any (· ∈ known.copied) then
    let name := entryName aliasName f.flatName
    { definitions :=
        known.definitions.put name (Fragment.define name (copyBody aliasName known.copied f.body))
      copied := Names.add known.copied f.flatName
      referenced := seen }
  else
    -- Shared: no entry can tell the definition from its own
    { definitions := known.definitions.put f.flatName f.definition
      copied := known.copied
      referenced := seen }

end EntryFragments

/-- The fragments of an entry that needs the fragments named, dependencies first, as resolution
lists them. -/
def Library.isolate (lib : Library) (aliasName : String) (names : List String) :
    Except CompileError EntryFragments := do
  let fragments ← names.mapM lib.lookup
  return fragments.foldl (EntryFragments.add aliasName) .empty

end QueryWeave
