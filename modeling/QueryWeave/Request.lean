import QueryWeave.Options
import QueryWeave.Response

/-!
# Requests and Exchanges

A request is everything that is needed for one exchange with a server. A computation that may
need an exchange either finishes by itself, or sends one request and goes on with the outcome;
that it never sends a second one shows in its type.
-/

namespace QueryWeave

/-- What is sent to a server. -/
structure Request where
  headers : Bindings String
  method : HttpMethod
  operationName : Option String
  query : String
  url : String
  values : JsonObject
  deriving Repr

/-- A computation that sends at most one request: it has a result, or it has a request and a result
for every outcome of it. The network is outside, and what it may do is the outcome. -/
inductive Exchange (α : Type) where
  | finished (result : α)
  | sends (request : Request) (next : Outcome → α)

namespace Exchange

/-- Go on with a result. -/
def map {α β : Type} (f : α → β) : Exchange α → Exchange β
  | finished result => .finished (f result)
  | sends request next => .sends request fun outcome => f (next outcome)

/-- The request that is sent, if any. -/
def request? {α : Type} : Exchange α → Option Request
  | finished _ => none
  | sends request _ => some request

/-- The result, if the server's part has the given outcome. -/
def result {α : Type} (outcome : Outcome) : Exchange α → α
  | finished result => result
  | sends _ next => next outcome

end Exchange

end QueryWeave
