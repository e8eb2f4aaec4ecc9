import QueryWeave.Http.Endpoint
import QueryWeave.Json.Reader
import QueryWeave.Json.Writer
import QueryWeave.Request
import QueryWeave.Text.Blank

/-!
# HTTP Messages

A request as it is sent over HTTP, and the outcome that a reply stands for. With `GET` the
operation is appended to the query of the URL; with `POST` it is the body, as JSON or as a form.
-/

namespace QueryWeave.Http

/-! ## §1 Bodies -/

def variablesText (r : Request) : String :=
  (Json.object r.values).compact

/-- The operation of a request as named parameters. The variables are sent even if there are none,
and the name only if the operation has one. -/
def parameters (r : Request) : List (String × String) :=
  [("query", r.query), ("variables", variablesText r)] ++
    match r.operationName with
    | none => []
    | some name => [("operationName", name)]

/-- The operation of a request as a JSON value. -/
def jsonBody (r : Request) : Json :=
  let operation := [("query", Json.string r.query), ("variables", .object r.values)]
  .object (match r.operationName with
    | none => operation
    | some name => ("operationName", .string name) :: operation)

/-! ## §2 Headers -/

def isTokenChar (c : Char) : Bool :=
  c.isAlphanum ||
    c ∈ ['!', '#', '$', '%', '&', '\'', '*', '+', '-', '.', '^', '_', '`', '|', '~']

/-- Characters of header values: all but the controls, and the tab. -/
def isValueChar (c : Char) : Bool :=
  c = '\t' || (0x20 ≤ c.toNat && c ≠ '\x7f')

/-- The longest header name. -/
def maxHeaderName : Nat := 65535

def isHeader (header : String × String) : Bool :=
  let name := header.1.toList
  name ≠ [] && name.length ≤ maxHeaderName && name.all isTokenChar &&
    header.2.toList.all isValueChar

def lowerName (header : String × String) : String × String :=
  (String.ofList (lowerChars header.1.toList), header.2)

def holds (name : String) (headers : List (String × String)) : Bool :=
  headers.any fun header => header.1 = name

/-- Add a header unless there is one of its name. -/
def addMissing (headers : List (String × String)) (header : String × String) :
    List (String × String) :=
  if holds header.1 headers then headers else headers ++ [header]

/-- Headers that a message has even if the request does not ask for them. A request for a range
does not announce that the answer may be compressed. -/
def standardHeaders (url : Url) (headers : List (String × String)) : List (String × String) :=
  [("accept", "*/*"), ("host", url.server)] ++
    if holds "range" headers then [] else [("accept-encoding", "gzip")]

/-! ## §3 Messages -/

/-- A request as it is sent. -/
structure Message where
  method : HttpMethod
  url : Url
  /-- Names in lower case, repeated where a header has several values. -/
  headers : List (String × String)
  body : String
  deriving Repr, DecidableEq

/-- The type of the content, the body and the URL of a request. This is all that depends on how the
operation is encoded; with `GET` there is no body, and no type for it. -/
def content (form : Bool) (r : Request) (url : Url) : List (String × String) × String × Url :=
  match r.method with
  | .get => ([], "", url.addParameters (parameters r))
  | .post =>
    if form then
      ([("content-type", "application/x-www-form-urlencoded")],
        String.ofList (formChars (parameters r)), url)
    else ([("content-type", "application/json")], (jsonBody r).compact, url)

/-- The message for a request, if its URL names an endpoint and HTTP allows its headers. What names
an endpoint is for `readUrl` to say.

Headers of the request come first and are kept as they are, repeated names included; the standard
ones are added where the request has none of that name. -/
def Message.compose? (readUrl : UrlReader) (form : Bool) (r : Request) : Option Message := do
  let url ← readUrl r.url
  guard (r.headers.all isHeader)
  let (contentType, body, target) := content form r url
  let asked := contentType ++ r.headers.map lowerName
  let length :=
    if r.method = .get then [] else [("content-length", toString (byteLength body.toList))]
  return {
    method := r.method
    url := target
    headers := (standardHeaders url asked ++ length).foldl addMissing asked
    body }

/-- The message for a request to a plain endpoint, which is what the program sends. -/
def Message.ofRequest? (form : Bool) (r : Request) : Option Message :=
  Message.compose? Url.ofPlain? form r

/-- The values of a header, without blanks around them. -/
def Message.valuesOf (m : Message) (name : String) : List String :=
  let wanted := String.ofList (lowerChars name.toList)
  (m.headers.filter fun header => header.1 = wanted).map fun header => Text.trim header.2

/-! ## §4 Replies -/

/-- What a server replies. -/
structure Reply where
  status : Nat
  body : String
  deriving Repr, DecidableEq

namespace Reply

/-- Whether a reply is complete: its status has three digits and does not announce another reply.
The status 101 ends the exchange. -/
def isComplete (r : Reply) : Bool :=
  r.status = 101 || 200 ≤ r.status && r.status < 1000

/-- The body as it is received: some statuses have none. -/
def received (r : Reply) : String :=
  if r.status ∈ [101, 204, 304] then "" else r.body

/-- The outcome that a reply stands for. The status is looked at first: the body of a reply that is
no success is shown as it is, even if it is a response. -/
def outcome (r : Reply) : Outcome :=
  if !r.isComplete then .error (.transport "the reply is not complete")
  else if 200 ≤ r.status && r.status < 300 then
    match Draft.ofText? r.received >>= Response.ofDraft? with
    | none => .error (.decode "the body is not a response")
    | some response => response.outcome
  else .error (.httpStatus r.status r.received)

end Reply

/-- The outcome where nothing is sent. -/
def notSent : Outcome :=
  .error (.transport "the request cannot be sent")

end QueryWeave.Http
