import QueryWeave.Files
import QueryWeave.Http.Url

/-!
# Plain Endpoints

A reader for endpoints that are written plainly: `http` or `https`, a host that is a name or four
numbers, a port, a path and a query. Line breaks and tabs do not count, the dot segments of the path
are resolved, and what may not stand in a path or a query is percent-encoded; a fragment behind a
hash sign is dropped, since it is never sent.

The reader is no library of URLs. It gives nothing for whatever such a library reads, or refuses, by
rules of its own:

* a user name or a password in front of the host;
* hosts in brackets, hosts with percent signs or characters outside of ASCII, and internationalized
  names (`xn--`);
* numbers as hosts in any other form than four decimal ones, such as `0x7f.1`;
* ports that are empty, have zeros in front, or are those that the scheme has anyway.
-/

namespace QueryWeave.Http

/-! ## §1 Characters -/

/-- Characters that are always encoded: controls and whatever is not ASCII. -/
def isEncodedEverywhere (c : Char) : Bool :=
  c.toNat < 0x20 || 0x7E < c.toNat

def isEncodedInPath (c : Char) : Bool :=
  isEncodedEverywhere c || c ∈ [' ', '"', '#', '<', '>', '?', '`', '{', '}']

def isEncodedInQuery (c : Char) : Bool :=
  isEncodedEverywhere c || c ∈ [' ', '"', '#', '<', '>', '\'']

def encodeWhere (p : Char → Bool) (cs : List Char) : List Char :=
  cs.flatMap fun c => if p c then percentChar c else [c]

def lowerChars (cs : List Char) : List Char :=
  cs.map Char.toLower

/-! ## §2 Paths -/

def isSingleDot (segment : List Char) : Bool :=
  lowerChars segment ∈ [['.'], ['%', '2', 'e']]

def isDoubleDot (segment : List Char) : Bool :=
  lowerChars segment ∈ [['.', '.'], ['.', '%', '2', 'e'], ['%', '2', 'e', '.'],
    ['%', '2', 'e', '%', '2', 'e']]

/-- Resolve the dot segments of a path. A dot segment at the end leaves an empty one, so that the
path ends with a slash as the directory it names does. -/
def resolveDots (above : List (List Char)) : List (List Char) → List (List Char)
  | [] => above
  | segment :: rest =>
    if isDoubleDot segment then
      let parent := above.dropLast
      resolveDots (if rest.isEmpty then parent ++ [[]] else parent) rest
    else if isSingleDot segment then
      resolveDots (if rest.isEmpty then above ++ [[]] else above) rest
    else resolveDots (above ++ [encodeWhere isEncodedInPath segment]) rest

/-- A path with its dot segments resolved. -/
def normalPath (path : List Char) : List Char :=
  let slashed := path.map fun c => if c = '\\' then '/' else c
  match slashed with
  | '/' :: rest => (resolveDots [] (Files.splitAt '/' rest)).flatMap fun segment => '/' :: segment
  | _ => ['/']

/-! ## §3 Servers -/

/-- A decimal number below a bound, with no zeros in front. Zeros in front would make it an octal
number for a reader of hosts, and are dropped by a reader of ports. -/
def plainNumber? (bound : Nat) (digits : List Char) : Option Nat := do
  guard (digits.all Char.isDigit && (digits = ['0'] || digits.head?.any (· ≠ '0')))
  let value := digits.foldl (fun n c => n * 10 + (c.toNat - '0'.toNat)) 0
  guard (value < bound)
  return value

/-- Whether the labels of a host are four numbers of one byte each. -/
def isPlainAddress (labels : List (List Char)) : Bool :=
  labels.length = 4 && labels.all fun label => (plainNumber? 256 label).isSome

/-- Whether a label can stand in a plain name. -/
def isPlainLabel (label : List Char) : Bool :=
  label ≠ [] && label.all (fun c => c.isLower || c.isDigit || c = '-' || c = '_') &&
    !"xn--".toList.isPrefixOf label

/-- Whether the labels of a host are a name. The last one begins with a letter, which no number
does. -/
def isPlainName (labels : List (List Char)) : Bool :=
  labels.all isPlainLabel && labels.getLast?.any fun label => label.head?.any Char.isLower

/-- Whether a host is a name or four numbers. -/
def isPlainHost (host : List Char) : Bool :=
  let labels := Files.splitAt '.' host
  isPlainAddress labels || isPlainName labels

/-- The port that is used if none is written. -/
def schemePort (scheme : String) : Nat :=
  if scheme = "https" then 443 else 80

/-- Whether a server is a host, with a port behind a colon if it is another one than that of the
scheme. -/
def isPlainServer (scheme : String) (server : List Char) : Bool :=
  match Files.splitAt ':' server with
  | [host] => isPlainHost host
  | [host, port] => isPlainHost host && (plainNumber? 65536 port).any (· ≠ schemePort scheme)
  | _ => false

/-- Characters that end the server of a URL. -/
def endsServer (c : Char) : Bool :=
  c = '/' || c = '\\' || c = '?' || c = '#'

/-! ## §4 URLs -/

namespace Url

/-- Controls and spaces at both ends of a text, and line breaks and tabs anywhere, do not count. -/
def clean (cs : List Char) : List Char :=
  let isMargin (c : Char) := decide (c.toNat ≤ 0x20)
  let trimmed := ((cs.dropWhile isMargin).reverse.dropWhile isMargin).reverse
  trimmed.filter fun c => c ≠ '\t' && c ≠ '\n' && c ≠ '\r'

/-- The URL behind its scheme. -/
def behindScheme? (scheme : String) (cs : List Char) : Option Url := do
  let slashless := cs.dropWhile fun c => c = '/' || c = '\\'
  let server := lowerChars (slashless.takeWhile fun c => !endsServer c)
  guard (isPlainServer scheme server)
  let rest := (slashless.dropWhile fun c => !endsServer c).takeWhile (· ≠ '#')
  let path := rest.takeWhile (· ≠ '?')
  let query := match rest.dropWhile (· ≠ '?') with
    | [] => none
    | _ :: query => some (encodeWhere isEncodedInQuery query)
  return ⟨scheme, String.ofList server, normalPath path, query⟩

/-- The URL that a text is, if it names a plain endpoint. -/
def ofPlain? : UrlReader := fun text => do
  let cs := clean text.toList
  let scheme := String.ofList (lowerChars (cs.takeWhile (· ≠ ':')))
  guard (scheme = "http" || scheme = "https")
  behindScheme? scheme ((cs.dropWhile (· ≠ ':')).drop 1)

example : (ofPlain? "http://127.0.0.1:8080/a/../graphql?x=1#top").map target =
    some "/graphql?x=1" := by decide +kernel

example : ["http://a:b:80/", "http://[zz]/", "http://999.999.999.999/"].filterMap ofPlain? =
    [] := by
  decide +kernel

end Url

end QueryWeave.Http
