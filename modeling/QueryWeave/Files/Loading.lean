import QueryWeave.Files
import QueryWeave.Fragment.Tree
import QueryWeave.Json.Reader
import QueryWeave.Json.Writer
import QueryWeave.Text.Blank

/-!
# Loading Fragments and Variables

A fragment library is a JSON file that holds a fragment tree, or a directory whose files are the
bodies: the way to a file, without its extension and with dots for separators, is the path of the
fragment. Variables are a JSON object, given directly or in a file.

The files are those of `Files`: texts that can be read, in directories that can be listed. Files
that are unreadable or no UTF-8, names that are no UTF-8, symbolic links and the loops they can
form are left out, and so is what may change on a disk between two looks at it. Of a text that is no
JSON it is only said that it is none (`LoadError.json`).
-/

namespace QueryWeave

/-! ## §1 Errors -/

/-- Why fragments or variables are not loaded. -/
inductive LoadError where
  | file (cause : FileError)
  /-- The directory of a library is not reached. -/
  | walk (path : String) (cause : FileError)
  /-- A text is not JSON, or not of the expected shape. -/
  | json
  /-- Variables are no JSON object. -/
  | notAnObject (found : Json)
  /-- A path goes through a fragment as if it were a namespace. -/
  | nestedInFragment (path segment : String)
  deriving Repr

def LoadError.message : LoadError → String
  | file cause => cause.message
  | walk path cause =>
    "IO error for operation on " ++ path ++ ": " ++ cause.message ++ ": " ++ cause.message
  | json => "invalid JSON"
  | notAnObject found => "Variables must be a JSON object, found `" ++ found.compact ++ "`"
  | nestedInFragment path segment =>
    s!"`{path}` is nested under `{segment}`, which is already a fragment"

/-! ## §2 Paths of files -/

/-- A file name cut at its last dot into stem and extension. A dot at the front cuts nothing, so
that a hidden file has no extension, and two dots alone are no file name. -/
def splitExtension (name : List Char) : Option (List Char × List Char) :=
  let reversed := name.reverse
  let extension := (reversed.takeWhile (· ≠ '.')).reverse
  match reversed.dropWhile (· ≠ '.') with
  | [] | [_] => none
  | _ :: stem => if name = ['.', '.'] then none else some (stem.reverse, extension)

/-- The last segment of a fragment path. A stem that is a single dot keeps the dot behind it. -/
def leafOfStem (stem : List Char) : String :=
  if stem = ['.'] then ".." else String.ofList stem

/-- The fragment path of a file inside a library, if its extension is among `extensions`. -/
def fragmentPath? (extensions : List String) (names : List String) : Option String := do
  let name ← names.getLast?
  let (stem, extension) ← splitExtension name.toList
  guard (String.ofList extension ∈ extensions)
  return ".".intercalate (names.dropLast ++ [leafOfStem stem])

/-! ## §3 Libraries -/

/-- Put a body into a namespace under the segments of its path.

On the way a body is refused, but at the end of the path it is replaced, and so is a namespace: the
leaf takes the place of whatever stands there. `LoadingLaws` says which directories lose a body by
this. -/
def insertFragment (path body : String) (entries : List (String × FragmentTree)) :
    List String → Except LoadError (List (String × FragmentTree))
  | [] => .ok entries
  -- The end of the path: what stands there, body or namespace, is lost
  | [leaf] => .ok (Bindings.put leaf (.body body) entries)
  | segment :: rest => do
    let inner ← match Bindings.find? segment entries with
      | none => pure []
      | some (.branch inner) => pure inner
      -- On the way there, a body cannot be gone into
      | some (.body _) => throw (.nestedInFragment path segment)
    let inner ← insertFragment path body inner rest
    return Bindings.put segment (.branch inner) entries

/-- Put a file into a namespace, if its extension is among `extensions`. -/
def insertFile (extensions : List String) (entries : List (String × FragmentTree))
    (file : List String × String) : Except LoadError (List (String × FragmentTree)) :=
  match fragmentPath? extensions file.1 with
  | none => .ok entries
  | some path =>
    let segments := (Files.splitAt '.' path.toList).map String.ofList
    -- Dots inside the names of directories separate segments too
    insertFragment path (Text.trim file.2) entries segments

namespace Files

/-- The tree of the files below a directory. Files go in one after the other, in the order of the
walk, and the first that is refused ends the loading. -/
def directoryTree (fs : Files) (extensions directory : List String) :
    Except LoadError FragmentTree :=
  ((fs.below directory).foldlM (insertFile extensions) []).map .branch

/-- The fragment tree that a path leads to: the JSON text of a file, or the files of a directory. -/
def loadFragments (fs : Files) (extensions : List String) (path : String) :
    Except LoadError FragmentTree :=
  match fs.locate path with
  | .ok (.file contents) =>
    match Draft.ofText? contents >>= FragmentTree.ofDraft? with
    | some tree => .ok tree
    | none => .error .json
  | .ok (.directory directory) => fs.directoryTree extensions directory
  | .error e => .error (.walk path e)

/-! ## §4 Variables -/

/-- The text of a variables argument: behind an at sign stands the path of a file. -/
def variablesText (fs : Files) (argument : String) : Except LoadError String :=
  match argument.toList with
  | '@' :: path => (fs.read (String.ofList path)).mapError .file
  | _ => .ok argument

/-- The variables that an argument gives. -/
def loadVariables (fs : Files) (argument : String) : Except LoadError JsonObject := do
  match Json.ofText? (← fs.variablesText argument) with
  | some (.object members) => return members
  | some found => throw (.notAnObject found)
  | none => throw .json

end Files

end QueryWeave
