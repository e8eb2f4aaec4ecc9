import QueryWeave.Batch.Session
import QueryWeave.Request

/-!
# Clients

A client for one endpoint, with a fragment library, options and batches of its own. Operations run
by themselves, or wait in a batch until it is committed; either way they are sent in one request.
-/

namespace QueryWeave

/-- A client for one endpoint. -/
structure Client where
  url : Option String
  options : ClientOptions
  library : Library
  session : Session
  deriving Repr

namespace Client

def start (url : Option String) (options : ClientOptions) (codes : AliasCodes) : Client :=
  ⟨url, options, .empty, .start codes⟩

/-! ## §1 Settings -/

/-- Add headers, or replace them, for every request from now on. -/
def addHeaders (c : Client) (headers : Bindings String) : Client :=
  { c with options := { c.options with headers := Bindings.putAll c.options.headers headers } }

/-- Register fragments in addition to those registered before. -/
def addFragments (c : Client) (tree : FragmentTree) : Client × Option CompileError :=
  let (library, failure) := c.library.registerTree tree
  ({ c with library }, failure)

/-- The definition of a fragment without the blank characters in front. -/
def fragmentDefinition (c : Client) (path : String) : Except CompileError String :=
  (c.library.definition path).map Text.trimStart

/-! ## §2 Compiling -/

def compile (c : Client) (template : Template) (values : JsonObject) :
    Except CompileError Compiled :=
  c.library.compile template values c.options.alwaysAutodeclare

def buildQuery (c : Client) (source : String) (values : JsonObject) :
    Except CompileError String :=
  (c.compile (.prepare .query source) values).map Compiled.document

/-! ## §3 Sending -/

/-- The request for a document. -/
def request (c : Client) (url : String) (operationName : Option String) (query : String)
    (values : JsonObject) : Request :=
  { headers := c.options.headers, method := c.options.method, operationName, query, url, values }

/-- Run an operation by itself. That there is no URL is found out before the operation is
compiled. -/
def run (c : Client) (template : Template) (values : JsonObject) : Exchange OperationResult :=
  match c.url with
  | none => .finished (.error .noUrlConfigured)
  | some url =>
    match c.compile template values with
    | .error e => .finished (.error (.compile e))
    | .ok compiled =>
      -- The variables go under their bare names, whatever their keys said of types
      .sends (c.request url compiled.name compiled.document (stripModifiers values))
        fun outcome => outcome.mapError .request

def merge (c : Client) (batchKey : String) (template : Template) (values : JsonObject) :
    Client × Except ClientError Nat :=
  let (session, result) := c.session.merge c.library batchKey template values
  ({ c with session }, result)

/-- Commit the batch under a key. The result is the data of all entries together; that of each entry
is waiting under its ticket when this one is there. -/
def commit (c : Client) (batchKey : String) : Exchange (Client × OperationResult) :=
  match c.session.drain batchKey with
  -- Nothing is sent, and the entries that were drained have this error for their results
  | (session, .error e) => .finished ({ c with session }, .error e)
  | (session, .ok prepared) =>
    match c.url with
    -- The batch is drained before the URL is asked for, so its entries fail with it
    | none => .finished ({ c with session := session.fail prepared .noUrlConfigured },
        .error .noUrlConfigured)
    | some url =>
      .sends (c.request url none prepared.document prepared.values) fun outcome =>
        let (settled, answer) := session.distribute prepared outcome
        ({ c with session := settled }, answer)

/-- Ask for the result of a ticket. -/
def poll (c : Client) (ticket : Nat) : Client × Session.Delivery :=
  let (session, delivery) := c.session.poll ticket
  ({ c with session }, delivery)

end Client

end QueryWeave
