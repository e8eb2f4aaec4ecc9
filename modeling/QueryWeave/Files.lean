import QueryWeave.Bindings
import QueryWeave.Lexeme

/-!
# Files

What a command sees of the file system: text files under paths from the current directory, and
the directories that hold them. A path is followed name by name; every name but the last must be
a directory. Permissions, symbolic links, and contents or names that are no UTF-8 are left out.
-/

namespace QueryWeave

/-! ## §1 Files and directories -/

/-- Files by the names on the way to them, and directories that exist besides those that hold a
file. A way that starts at the root of the file system begins with the name `/`, and one that
leaves the current directory upwards with names `..`. -/
structure Files where
  files : List (List String × String)
  directories : List (List String)
  deriving Repr, DecidableEq

/-- Why a path does not lead to a text. -/
inductive FileError where
  | notFound
  | notDirectory
  | isDirectory
  | nameTooLong
  | nulCharacter
  deriving Repr, DecidableEq

def FileError.message : FileError → String
  | notFound => "No such file or directory (os error 2)"
  | notDirectory => "Not a directory (os error 20)"
  | isDirectory => "Is a directory (os error 21)"
  | nameTooLong => "File name too long (os error 36)"
  | nulCharacter => "file name contained an unexpected NUL byte"

/-- What a path leads to. A directory is given by the way to it, under which its files are found. -/
inductive Place where
  | file (contents : String)
  | directory (names : List String)
  deriving Repr, DecidableEq

namespace Files

/-- The longest name, in bytes. -/
def maxNameLength : Nat := 255

/-- The longest path, in bytes. -/
def maxPathLength : Nat := 4095

/-- The contents of the file at the end of a way. -/
def contents? (fs : Files) (names : List String) : Option String :=
  (fs.files.find? fun file => file.1 = names).map Prod.snd

/-- Whether a way leads to a directory: the current one and those above it, the root, a directory
that is listed, and whatever holds a file. -/
def isDirectory (fs : Files) (names : List String) : Bool :=
  names.all (· = "..") || names = ["/"] || names ∈ fs.directories ||
    fs.files.any fun file => names.isPrefixOf file.1 && names ≠ file.1

def above (names : List String) : List String :=
  if names.all (· = "..") then names ++ [".."]
  else if names = ["/"] then names
  else names.dropLast

/-! ## §2 Following a path -/

/-- Follow names from a directory. A file in the middle of a path is an error even if the names
behind it would lead back, as `file/..` does. -/
def follow (fs : Files) (from_ : List String) : List String → Except FileError Place
  | [] => .ok (.directory from_)
  | name :: rest =>
    -- Repeated slashes and single dots stay where they are
    if name = "" || name = "." then fs.follow from_ rest
    else if name = ".." then fs.follow (above from_) rest
    else if maxNameLength < byteLength name.toList then .error .nameTooLong
    else
      let reached := from_ ++ [name]
      match fs.contents? reached with
      -- Names behind a file lead nowhere, not even an empty one
      | some contents => if rest.isEmpty then .ok (.file contents) else .error .notDirectory
      | none => if fs.isDirectory reached then fs.follow reached rest else .error .notFound

def splitAt (mark : Char) : List Char → List (List Char)
  | [] => [[]]
  | c :: rest =>
    if c = mark then [] :: splitAt mark rest
    else
      match splitAt mark rest with
      | [] => [[c]]
      | part :: parts => (c :: part) :: parts

def pathNames (path : String) : List String :=
  (splitAt '/' path.toList).map String.ofList

def startOf (path : String) : List String :=
  if path.toList.head? = some '/' then ["/"] else []

/-- What a path leads to. What is wrong with the text of the path is found before any directory is
looked at. -/
def locate (fs : Files) (path : String) : Except FileError Place :=
  if path = "" then .error .notFound
  else if '\x00' ∈ path.toList then .error .nulCharacter
  else if maxPathLength < byteLength path.toList then .error .nameTooLong
  else fs.follow (startOf path) (pathNames path)

/-- The contents of the file that a path leads to. -/
def read (fs : Files) (path : String) : Except FileError String :=
  match fs.locate path with
  | .ok (.file contents) => .ok contents
  | .ok (.directory _) => .error .isDirectory
  | .error e => .error e

/-! ## §3 Walking a directory -/

/-- Whether one way stands before another: a directory stands in the place of its name, and names
are ordered character by character. This is the order of a walk that sorts every directory by name
and goes into a subdirectory where it meets it. -/
def standsBefore : List String → List String → Bool
  | [], _ => true
  | _ :: _, [] => false
  | a :: as, b :: bs => if a = b then standsBefore as bs else decide (a < b)

/-- Whether a way leads into a directory. What begins at the root or goes upwards from the current
directory does not. -/
def leadsInto (directory names : List String) : Bool :=
  directory.isPrefixOf names &&
    !(names.drop directory.length).head?.any fun name => name = "/" || name = ".."

/-- The files below a directory with their ways from it, in the order of a walk. -/
def below (fs : Files) (directory : List String) : List (List String × String) :=
  let inside := fs.files.filter fun file => leadsInto directory file.1
  (inside.map fun file => (file.1.drop directory.length, file.2)).mergeSort
    fun a b => standsBefore a.1 b.1

end Files

end QueryWeave
