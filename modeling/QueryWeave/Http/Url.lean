import QueryWeave.Http.Form

/-!
# Endpoint URLs

The URL of an endpoint, as far as a message depends on it: parameters are added to its query, and
its path and query are what the server is asked for.

Reading the text of a URL is the work of a library of its own, with rules for hosts, numbers, user
names and character sets that are no part of this one. So a message is put together with a reader
that is given (`UrlReader`), and what is said of messages holds with every reader. A user name and
a password, which travel as a header and not in the URL, are left out.
-/

namespace QueryWeave.Http

/-- The URL of an endpoint. -/
structure Url where
  scheme : String
  /-- The host, with a number behind a colon if one is needed. -/
  server : String
  path : List Char
  query : Option (List Char)
  deriving Repr, DecidableEq

/-- A reader of URLs: the endpoint that a text names, if it names one. -/
abbrev UrlReader := String → Option Url

namespace Url

/-- The URL with parameters appended to its query. What the query holds already stays in front. -/
def addParameters (u : Url) (parameters : List (String × String)) : Url :=
  let query := match u.query with
    | none | some [] => formChars parameters
    | some before => before ++ '&' :: formChars parameters
  { u with query := some query }

/-- The path and the query as they are sent. -/
def target (u : Url) : String :=
  String.ofList (u.path ++ match u.query with
    | none => []
    | some query => '?' :: query)

end Url

end QueryWeave.Http
