import QueryWeave.Lexeme.Bracket
import QueryWeave.Lexeme.Scanner

/-!
# Aliased Selections

The selections of an entry, spelled so that its fields and variables can be told from those of
every other entry: each field at the top level comes back under the entry's alias, each variable
carries it, and each spread of a fragment that the entry has a copy of names that copy. A fragment
at the top level is refused, since its fields could not be told apart.
-/

namespace QueryWeave

/-! ## §1 Names of an entry -/

/-- The name of a variable of the entry `aliasName`. Two underscores tell it from a fragment or
field, and no name of one entry is the name of another (`entryVariable_inj`). -/
def entryVariable (aliasName name : String) : String :=
  aliasName ++ "__" ++ name

/-- The name of a fragment or field of the entry `aliasName`. -/
def entryName (aliasName name : String) : String :=
  aliasName ++ "_" ++ name

def Lexeme.toEntryVariable (aliasName : String) (l : Lexeme) : Lexeme :=
  l.respell ('$' :: (entryVariable aliasName l.variableName).toList)

def Lexeme.toEntryName (aliasName : String) (l : Lexeme) : Lexeme :=
  l.respell (entryName aliasName l.word).toList

/-- Whether a lexeme, behind `before`, names a spread fragment among `copied`. The ellipsis in front
tells a spread from a field of the same name. -/
def namesCopy (copied : List String) (before : Option Lexeme) (l : Lexeme) : Bool :=
  before.any (fun b => b.kind = .ellipsis) && l.isName && l.word ∈ copied

/-! ## §2 Walking the selections -/

/-- A field at the top level of an entry. -/
structure ResponseField where
  /-- The key under which it comes back. -/
  aliased : String
  /-- The key that the caller expects. -/
  expected : String
  deriving Repr, DecidableEq

/-- Where the walk along the selections stands. Three things tell a response key from other names:
the depth, the lexeme in front, and the last lexeme in front at the top level. -/
structure SelectionPoint where
  depth : Nat
  /-- The lexeme directly in front. -/
  before : Option Lexeme
  /-- The last lexeme in front that stands at the top level. -/
  lastTop : Option Lexeme
  deriving Repr, DecidableEq

namespace SelectionPoint

/-- In front of the first selection. -/
def start : SelectionPoint := ⟨0, none, none⟩

/-- Behind one more lexeme. A bracket closed at the top level is passed over.

Both brackets of a part count as lexemes of the top level, what is inside does not. So the closing
bracket of arguments or selections is what the next name is told by. -/
def advance (p : SelectionPoint) (l : Lexeme) : SelectionPoint :=
  let depth := if l.opens then p.depth + 1 else if l.closes then p.depth - 1 else p.depth
  ⟨depth, some l, if p.depth = 0 || depth = 0 then some l else p.lastTop⟩

/-- Whether a name at the top level begins a selection: it is neither the field behind an alias
nor the name of a directive. -/
def beginsSelection (p : SelectionPoint) : Bool :=
  p.depth = 0 && !p.lastTop.any fun l => l.isMark ':' || l.isMark '@'

end SelectionPoint

/-- What becomes of a lexeme of the selections. Every lexeme has one role, and how it is spelled
depends on nothing else. -/
inductive SelectionRole where
  | kept
  | variableUse
  /-- The name of a spread fragment that the entry has a copy of. -/
  | copiedSpread
  /-- A response key at the top level; whether an alias is written already. -/
  | responseKey (written : Bool)
  | topLevelFragment
  deriving Repr, DecidableEq

/-- The role of a lexeme at a point of the walk, with `next` behind it. The colon behind a key makes
it an alias that is written already. -/
def SelectionPoint.role (copied : List String) (p : SelectionPoint) (l : Lexeme)
    (next : Option Lexeme) : SelectionRole :=
  -- Variables are renamed at every depth, and in arguments too
  if l.isVariable then .variableUse
  else if l.kind = .ellipsis && p.depth = 0 then .topLevelFragment
  else if namesCopy copied p.before l then .copiedSpread
  -- Copied spreads were told before: the name of one begins no selection
  else if l.isName && p.beginsSelection then .responseKey (next.any (Lexeme.isMark ':'))
  else .kept

/-- The lexemes that stand for a lexeme in its role. A response key without alias gets one, and the
name of the field follows without a gap. -/
def SelectionRole.spell (aliasName : String) (l : Lexeme) : SelectionRole → List Lexeme
  | .variableUse => [l.toEntryVariable aliasName]
  | .copiedSpread => [l.toEntryName aliasName]
  | .responseKey true => [l.toEntryName aliasName]
  -- `post` becomes `merge0001_post:post`, so the server still finds the field
  | .responseKey false =>
    [l.toEntryName aliasName, ⟨[], .punctuator ':', [':']⟩, ⟨[], .name, l.text⟩]
  | .kept | .topLevelFragment => [l]

/-- The field that a lexeme in its role stands for. -/
def SelectionRole.field? (aliasName : String) (l : Lexeme) : SelectionRole → Option ResponseField
  | .responseKey _ => some ⟨entryName aliasName l.word, l.word⟩
  | _ => none

/-- Aliased selections with their fields at the top level. -/
structure AliasedRow where
  row : List Lexeme
  fields : List ResponseField
  deriving Repr, DecidableEq

/-- Alias a row of selections from a point of the walk on. Fails at a fragment at the top level,
whose fields are known to the server alone. -/
def aliasRow (aliasName : String) (copied : List String) (p : SelectionPoint) :
    List Lexeme → Option AliasedRow
  | [] => some ⟨[], []⟩
  | l :: rest =>
    let role := p.role copied l rest.head?
    if role = .topLevelFragment then none
    else
      (aliasRow aliasName copied (p.advance l) rest).map fun later =>
        ⟨role.spell aliasName l ++ later.row, (role.field? aliasName l).toList ++ later.fields⟩

/-- The text of aliased selections, and their fields. -/
def aliasSelections (aliasName : String) (copied : List String) (selections : List Char) :
    Option (List Char × List ResponseField) :=
  let s := scan selections
  (aliasRow aliasName copied .start s.lexemes).map fun aliased =>
    (Lexeme.charsOf aliased.row ++ s.trailer, aliased.fields)

end QueryWeave
