import QueryWeave.Json.Draft

/-!
# Fragment Trees

Fragment bodies under nested names, as a library takes them in. The path of a body is made of the
names on the way to it, joined by dots.
-/

namespace QueryWeave

/-- A body, or named subtrees in order. -/
inductive FragmentTree where
  | body (text : String)
  | branch (entries : List (String × FragmentTree))
  deriving Repr

namespace FragmentTree

/-! ## §1 Paths -/

def childPath (parent : Option String) (name : String) : String :=
  match parent with
  | none => name
  | some path => path ++ "." ++ name

mutual

/-- The paths and bodies of a tree inside a namespace. A body at the root has no path, and is passed
over: a tree that is nothing but a body registers nothing. -/
def flattenIn (parent : Option String) : FragmentTree → List (String × String)
  -- Only a body below a name has a path
  | .body text =>
    match parent with
    | none => []
    | some path => [(path, text)]
  | .branch entries => flattenEntries parent entries

/-- The paths and bodies of the entries of a namespace. -/
def flattenEntries (parent : Option String) : List (String × FragmentTree) → List (String × String)
  | [] => []
  | (name, tree) :: rest =>
    flattenIn (some (childPath parent name)) tree ++ flattenEntries parent rest

end

/-- The paths and bodies of a tree, in the order in which the tree names them. This is the order of
registration, and so a tree that is refused leaves the bodies in front of the refused one. -/
def flatten (tree : FragmentTree) : List (String × String) :=
  flattenIn none tree

/-! ## §2 As JSON -/

mutual

/-- A tree as a JSON value. -/
def toJson : FragmentTree → Json
  | .body text => .string text
  | .branch entries => .object (toMembers entries)

def toMembers : List (String × FragmentTree) → List (String × Json)
  | [] => []
  | (name, tree) :: rest => (name, toJson tree) :: toMembers rest

end

mutual

/-- The tree that a JSON text describes: strings are bodies and objects are namespaces. A repeated
name keeps its first place and takes its last subtree, but every subtree must be one. -/
def ofDraft? : Draft → Option FragmentTree
  | .string text => some (.body text)
  | .object members => (ofMembers? members).map fun entries => .branch (Bindings.collapse entries)
  | _ => none

def ofMembers? : List (Option String × Draft) → Option (List (String × FragmentTree))
  | [] => some []
  | (name, member) :: rest => do
    let name ← name
    let tree ← ofDraft? member
    let others ← ofMembers? rest
    return (name, tree) :: others

end

/-- The tree that a JSON value describes. -/
def ofJson? (value : Json) : Option FragmentTree :=
  ofDraft? (Draft.ofJson value)

/-- A namespace of bodies. A repeated name keeps its first place and takes its last body. -/
def ofBodies (entries : List (String × String)) : FragmentTree :=
  .branch (Bindings.collapse (entries.map fun entry => (entry.1, .body entry.2)))

end FragmentTree

end QueryWeave
