/-!
# Compile Errors

Why a fragment is not accepted, or a template not compiled.
-/

namespace QueryWeave

/-- The causes of a failed registration or compilation, each with what its message names. -/
inductive CompileError where
  /-- Two paths of the library would share one flat name. -/
  | flatNameCollision (path existingPath flatName : String)
  /-- Fragments spread each other in a circle; the path names them in order, the first again
  at the end. -/
  | fragmentCycle (path : List String)
  | fragmentNotFound (path : String)
  /-- A body does not begin with `on` and a type name. -/
  | malformedFragment (path body : String)
  /-- A template has no closed signature or selection set. -/
  | unbalancedTemplate (template : String)
  deriving Repr, DecidableEq

def CompileError.message : CompileError → String
  | flatNameCollision path existingPath flatName =>
    s!"Fragments at paths '{path}' and '{existingPath}' both flatten to '{flatName}'"
  | fragmentCycle path => "Fragment cycle detected: " ++ " → ".intercalate path
  | fragmentNotFound path => s!"Fragment not found: '{path}'"
  | malformedFragment path body =>
    s!"Fragment '{path}' must have the form `on <Type> \x7b...\x7d`, found: `{body}`"
  | unbalancedTemplate template =>
    s!"Operation template has no balanced selection set: `{template}`"

end QueryWeave
