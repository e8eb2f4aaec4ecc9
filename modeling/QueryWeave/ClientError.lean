import QueryWeave.CompileError
import QueryWeave.Response

/-!
# Client Errors

Why an operation gives no data: it does not compile, its request fails, or its batch does not
come to a request.
-/

namespace QueryWeave

/-- The causes of a failed operation. -/
inductive ClientError where
  | compile (cause : CompileError)
  | emptyCommit (batchKey : String)
  /-- An entry references a variable without value and without default. -/
  | missingVariable (aliasName variableName : String)
  | noUrlConfigured
  /-- The batch was dropped before it was answered. -/
  | pendingResultDropped
  | request (cause : RequestError)
  /-- An entry has a fragment where only fields can be told apart. -/
  | topLevelFragment (aliasName batchKey : String)
  deriving Repr

def ClientError.message : ClientError → String
  | compile cause => cause.message
  | emptyCommit batchKey => s!"Nothing to commit for batch key '{batchKey}'"
  | missingVariable aliasName variableName =>
    s!"Variable '${variableName}' is referenced by merged entry '{aliasName}' " ++
      "but no value was supplied"
  | noUrlConfigured => "No URL configured for this client"
  | pendingResultDropped => "The batch holding this pending result was dropped before commit"
  | request cause => cause.message
  | topLevelFragment aliasName batchKey =>
    s!"Merged entry '{aliasName}' of batch '{batchKey}' uses a fragment at the top level of its " ++
      "selection set; only fields can be merged"

/-- The result of an operation: its data, or why there is none. -/
abbrev OperationResult := Except ClientError JsonObject

end QueryWeave
