import QueryWeave.CompileError
import QueryWeave.Fragment.Tree
import QueryWeave.Lexeme.Scanner
import QueryWeave.Spread

/-!
# Fragment Libraries

Fragments under dotted paths. Compiled documents name a fragment by its *flat name*, the path with
every dot replaced by an underscore; a library keeps one fragment per flat name, and finds it by the
path or by the flat name. The spreads inside a body are flattened when the body is taken in.

The flat name of a fragment is nowhere kept apart from its path: it is computed wherever it is asked
for (`Fragment.flatName`), and a library is a list and no table from flat names to fragments. So
that a fragment is kept under the flat name of its own path holds by construction, and what is left
to say is that no two fragments share one.
-/

namespace QueryWeave

/-! ## §1 Flat names -/

/-- The characters of a path with every dot replaced by an underscore. -/
def flattenChars (path : List Char) : List Char :=
  path.map fun c => if c = '.' then '_' else c

/-- The flat name of a path. -/
def flattenPath (path : String) : String :=
  String.ofList (flattenChars path.toList)

/-- A piece with the path of its spread flattened, and all else as it was. -/
def Piece.flatten : Piece → List Lexeme
  | .single l => [l]
  | .spread s => [s.dots, s.head.respell (flattenChars s.pathText)]

/-- A text with the paths of its spreads flattened. -/
def flattenSpreads (s : Scan) : List Char :=
  Lexeme.charsOf ((pieces s.lexemes).flatMap Piece.flatten) ++ s.trailer

/-! ## §2 Fragments -/

/-- A registered fragment. The body has its spreads flattened. -/
structure Fragment where
  path : String
  body : String
  deriving Repr, DecidableEq

namespace Fragment

/-- The name of the fragment in compiled documents, which have no dots in names. -/
def flatName (f : Fragment) : String :=
  flattenPath f.path

/-- A definition under a name, as it is appended to a document. -/
def define (name body : String) : String :=
  "\nfragment " ++ name ++ " " ++ body

/-- The definition of the fragment under its flat name. -/
def definition (f : Fragment) : String :=
  define f.flatName f.body

def row (f : Fragment) : List Lexeme :=
  (scanText f.body).lexemes

def spreadPaths (f : Fragment) : List String :=
  QueryWeave.spreadPaths f.row

/-- The characters behind a leading `on`, if the text begins with it. -/
def behindOn : List Char → List Char
  | 'o' :: 'n' :: rest => rest
  | _ => []

/-- The type named behind a leading `on`.

It is taken from the text and not from its lexemes: only blank characters are skipped, so that a
comment in front of the `on`, or behind it, leaves no type. `ConditionLaws` says when the answer is
the type of the condition. -/
def typeCondition (f : Fragment) : String :=
  let behind := Text.dropBlank (behindOn (Text.dropBlank f.body.toList))
  String.ofList (behind.takeWhile isNamePart)

end Fragment

/-- Whether a row of lexemes begins with `on` and a type name. This is all that a registration asks
of a body: that its braces are closed, or that it has any, is not looked at. -/
def beginsWithCondition : List Lexeme → Bool
  | on :: typeName :: _ => on.isName && on.text = ['o', 'n'] && typeName.isName
  | _ => false

/-! ## §3 Libraries -/

/-- Fragments in the order in which their paths were first registered. That no two share a flat name
is an invariant of `register` (`RegistryLaws.distinct`). -/
structure Library where
  fragments : List Fragment
  deriving Repr, DecidableEq

namespace Library

def empty : Library := ⟨[]⟩

def size (lib : Library) : Nat :=
  lib.fragments.length

def isEmpty (lib : Library) : Bool :=
  lib.fragments.isEmpty

/-- The fragment under a path or flat name. Both are flattened before they are compared, so that a
mixture of the two, dotted in one place and underscored in another, finds the fragment as well. -/
def find? (lib : Library) (path : String) : Option Fragment :=
  lib.fragments.find? fun f => f.flatName = flattenPath path

/-- The fragment under a path or flat name, or the error that there is none. -/
def lookup (lib : Library) (path : String) : Except CompileError Fragment :=
  match lib.find? path with
  | some f => .ok f
  | none => .error (.fragmentNotFound path)

/-- The definition of the fragment under a path or flat name. -/
def definition (lib : Library) (path : String) : Except CompileError String :=
  (lib.lookup path).map Fragment.definition

def definitions (lib : Library) (names : List String) : Except CompileError (List String) :=
  names.mapM lib.definition

def list (lib : Library) : Bindings String :=
  lib.fragments.map fun f => (f.flatName, f.definition)

/-- Put a fragment into a row: in the place of the one with its flat name, else at the end. -/
def place (f : Fragment) : List Fragment → List Fragment
  | [] => [f]
  | g :: rest => if g.flatName = f.flatName then f :: rest else g :: place f rest

/-- Register a body under a path. A body registered before under the same path is replaced in its
place.

The body is checked first, so that a malformed one is refused as such even under a path that another
fragment blocks. What is stored is the body with its spreads written by flat name. -/
def register (lib : Library) (path body : String) : Except CompileError Library :=
  let scan := scanText body
  -- The form is asked for before the name
  if !beginsWithCondition scan.lexemes then .error (.malformedFragment path body)
  else
    match lib.find? path with
    | some old =>
      -- Two paths may have one flat name, and then only the first can be registered
      if old.path ≠ path then .error (.flatNameCollision path old.path (flattenPath path))
      else .ok ⟨place ⟨path, String.ofList (flattenSpreads scan)⟩ lib.fragments⟩
    | none => .ok ⟨place ⟨path, String.ofList (flattenSpreads scan)⟩ lib.fragments⟩

/-- Register bodies under their paths until one fails. What was registered before it stays, and so
the library is part of the result even where there is an error. -/
def registerAll (lib : Library) : List (String × String) → Library × Option CompileError
  | [] => (lib, none)
  | (path, body) :: rest =>
    match lib.register path body with
    | .ok next => next.registerAll rest
    | .error e => (lib, some e)

/-- Register every body of a tree, in order. -/
def registerTree (lib : Library) (tree : FragmentTree) : Library × Option CompileError :=
  lib.registerAll tree.flatten

end Library

end QueryWeave
