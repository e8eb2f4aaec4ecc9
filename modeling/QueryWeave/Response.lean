import QueryWeave.Json.Draft

/-!
# Responses

What a server answers, as a record of data and errors; the outcome that a caller sees; and the
causes of a failed request. A response with an error in its list fails, and one with neither data
nor errors gives no data.
-/

namespace QueryWeave

/-! ## §1 Records -/

/-- One error that a server reports. -/
structure ServerError where
  message : String
  path : Option (List Json)
  extensions : Option JsonObject
  deriving Repr

/-- The body of a response. A server that reports errors may still give data, but the data is then
not used (`Response.outcome`). -/
structure Response where
  data : Option JsonObject
  errors : List ServerError
  deriving Repr

/-! ## §2 Reading -/

namespace ServerError

/-- An error as it is read: every field may be missing, and null stands for a missing path or
missing extensions. -/
def ofDraft? (draft : Draft) : Option ServerError := do
  match ← Draft.record? ["message", "path", "extensions"] draft with
  | [message, path, extensions] =>
    let message ← Draft.fieldOr "" Draft.string? message
    let path ← Draft.fieldOr none (Draft.nullable Draft.items?) path
    let extensions ← Draft.fieldOr none (Draft.nullable Draft.object?) extensions
    return ⟨message, path, extensions⟩
  | _ => none

def listOfDraft? : Draft → Option (List ServerError)
  | .array items => items.mapM ofDraft?
  | _ => none

end ServerError

namespace Response

/-- A response as it is read: both fields may be missing, and null stands for missing data. -/
def ofDraft? (draft : Draft) : Option Response := do
  match ← Draft.record? ["data", "errors"] draft with
  | [data, errors] =>
    let data ← Draft.fieldOr none (Draft.nullable Draft.object?) data
    let errors ← Draft.fieldOr [] ServerError.listOfDraft? errors
    return ⟨data, errors⟩
  | _ => none

/-- The response that a JSON value describes. -/
def ofJson? (value : Json) : Option Response :=
  ofDraft? (Draft.ofJson value)

end Response

/-! ## §3 Writing -/

/-- A member of an object that is written only if it is present. -/
def optionalMember {α : Type} (name : String) (write : α → Json) : Option α → List (String × Json)
  | none => []
  | some value => [(name, write value)]

/-- An error as a JSON value. The path and the extensions are written if present. -/
def ServerError.toJson (e : ServerError) : Json :=
  .object (("message", .string e.message) ::
    optionalMember "path" Json.array e.path ++ optionalMember "extensions" Json.object e.extensions)

def ServerError.listToJson (errors : List ServerError) : Json :=
  .array (errors.map toJson)

/-- A response as a JSON value. The errors are written if there are any. -/
def Response.toJson (r : Response) : Json :=
  .object (("data", (r.data.map Json.object).getD .null) ::
    if r.errors.isEmpty then [] else [("errors", ServerError.listToJson r.errors)])

/-! ## §4 Outcomes -/

/-- Why a request failed: on its way, at the server's door, in the reading of the answer, or because
the server says so. -/
inductive RequestError where
  /-- The answer is no response. -/
  | decode (reason : String)
  /-- The server reports errors. -/
  | server (errors : List ServerError)
  | httpStatus (status : Nat) (body : String)
  /-- There is no answer. -/
  | transport (reason : String)
  deriving Repr

def RequestError.message : RequestError → String
  | decode reason => "Failed to decode GraphQL response: " ++ reason
  | server errors =>
    "GraphQL server returned errors: " ++ "; ".intercalate (errors.map ServerError.message)
  | httpStatus status body => s!"GraphQL server responded with HTTP {status}: {body}"
  | transport reason => "Transport failure: " ++ reason

/-- What comes of a request: the data, or the cause of its failure. -/
abbrev Outcome := Except RequestError JsonObject

/-- The outcome that a response stands for: the first error decides, whatever data there is, and
data that is missing counts as none. -/
def Response.outcome (r : Response) : Outcome :=
  if r.errors.isEmpty then .ok (r.data.getD []) else .error (.server r.errors)

end QueryWeave
