import QueryWeave.Json.Draft

/-!
# Client Options

The settings of a client: whether missing signatures are inferred, the headers sent with every
request, and the method. Every field may be missing where options are read.
-/

namespace QueryWeave

/-! ## §1 Methods -/

/-- How a request is sent. -/
inductive HttpMethod where
  /-- With the operation in the query of the URL. -/
  | get
  /-- With the operation in the body. -/
  | post
  deriving Repr, DecidableEq

namespace HttpMethod

def name : HttpMethod → String
  | get => "GET"
  | post => "POST"

/-- A text in ASCII upper case. -/
def upperCase (text : String) : String :=
  String.ofList (text.toList.map Char.toUpper)

/-- The method with exactly the given name, as it is spelled in a file of options. -/
def ofName? (text : String) : Option HttpMethod :=
  if text = "GET" then some get
  else if text = "POST" then some post
  else none

/-- The method with the given name in whatever case, as it is given on the command line. -/
def ofText? (text : String) : Option HttpMethod :=
  ofName? (upperCase text)

/-- What is said about a text that names no method. -/
def unsupported (text : String) : String :=
  "Unsupported HTTP method: `" ++ upperCase text ++ "`"

/-- The method that a draft names, as a string or as the only member of an object. -/
def ofDraft? : Draft → Option HttpMethod
  | .string text => ofName? text
  | .object [(some text, .null)] => ofName? text
  | _ => none

end HttpMethod

/-! ## §2 Options -/

/-- The settings of a client. -/
structure ClientOptions where
  alwaysAutodeclare : Bool
  headers : Bindings String
  method : HttpMethod
  deriving Repr, DecidableEq

namespace ClientOptions

/-- The settings where none are given. -/
def standard : ClientOptions := ⟨false, [], .post⟩

/-- A header as it is read. -/
def headerOfMember? (member : Option String × Draft) : Option (String × String) := do
  let name ← member.1
  let value ← member.2.string?
  return (name, value)

/-- Headers as they are read: an object of strings. -/
def headersOfDraft? : Draft → Option (Bindings String)
  | .object members => (members.mapM headerOfMember?).map Bindings.collapse
  | _ => none

/-- Options as they are read. A field that is missing has its standard value; one that is present
must be well formed, and an unknown one is ignored. -/
def ofDraft? (draft : Draft) : Option ClientOptions := do
  match ← Draft.record? ["alwaysAutodeclare", "headers", "method"] draft with
  | [alwaysAutodeclare, headers, method] =>
    let alwaysAutodeclare ← Draft.fieldOr false Draft.bool? alwaysAutodeclare
    let headers ← Draft.fieldOr [] headersOfDraft? headers
    let method ← Draft.fieldOr .post HttpMethod.ofDraft? method
    return ⟨alwaysAutodeclare, headers, method⟩
  | _ => none

def ofJson? (value : Json) : Option ClientOptions :=
  ofDraft? (Draft.ofJson value)

def toJson (o : ClientOptions) : Json :=
  .object [
    ("alwaysAutodeclare", .bool o.alwaysAutodeclare),
    ("headers", .object (o.headers.map fun header => (header.1, .string header.2))),
    ("method", .string o.method.name)]

end ClientOptions

end QueryWeave
