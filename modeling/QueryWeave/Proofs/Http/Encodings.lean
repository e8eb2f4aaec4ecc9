import QueryWeave.Http.Message
import QueryWeave.Proofs.Http.Form
import QueryWeave.Proofs.Json.Members

/-!
# Encodings of Requests

A request is sent as parameters of a URL, as a form or as JSON. Each of these, read by what is known
of its encoding alone, has the query, the name of the operation if there is one, and the same text
for the variables.

- `expectedPairs`, `CarriesJson`: what is expected of forms and of JSON.
- `encodingLaws`: the message of a request, in each encoding.
-/

namespace QueryWeave.Http

/-! ## §1 What is expected -/

/-- The pairs that a form is to have. -/
def expectedPairs (r : Request) : List (Option String × Option String) :=
  [(some "query", some r.query), (some "variables", some (Json.object r.values).compact)] ++
    r.operationName.toList.map fun name => (some "operationName", some name)

/-- The members that a JSON body is to have, with their texts. The operation name is left out where
the request has none, and the variables are an object that is written without blanks. -/
structure CarriesJson (r : Request) (body : String) : Prop where
  /-- The body is well formed, and is read as an object. -/
  wellFormed : Draft.ofText? body = some (.object
    ((r.operationName.toList.map fun name => (some "operationName", Draft.string name)) ++
      [(some "query", .string r.query), (some "variables", .written 1 (.object r.values))]))
  /-- Its strings are the texts of the request, and its variables have the text that a form has. -/
  members : ∃ texts, memberTexts? body.toList = some texts ∧
    texts.map Prod.fst = (r.operationName.toList.map fun _ => "operationName") ++
      ["query", "variables"] ∧
    (texts.lookup "operationName").map readString? = r.operationName.map some ∧
    (texts.lookup "query").map readString? = some (some r.query) ∧
    texts.lookup "variables" = some (Json.object r.values).compact.toList

/-- The parameters that are written are those that are expected. -/
theorem readForm_parameters (r : Request) :
    readForm (formChars (parameters r)) = expectedPairs r := by
  rw [readForm_formChars, parameters, expectedPairs]
  cases r.operationName <;> rfl

theorem carriesJson_jsonBody (r : Request) : CarriesJson r (jsonBody r).compact := by
  have hmembers : jsonBody r = .object ((r.operationName.toList.map fun name =>
      ("operationName", Json.string name)) ++
        [("query", .string r.query), ("variables", .object r.values)]) := by
    rw [jsonBody]
    cases r.operationName <;> rfl
  -- The name is the only member that may be absent, so both laws are checked with and without it
  constructor
  case wellFormed =>
    rw [Draft.ofText?_compact, hmembers]
    cases r.operationName <;> rfl
  case members =>
    rw [Json.compact, String.toList_ofList, hmembers, memberTexts?_compact]
    refine ⟨_, rfl, ?_⟩
    cases r.operationName with
    | none => simp [List.lookup_cons, Json.compact, Json.compactChars, readString?_quote]
    | some name => simp [List.lookup_cons, Json.compact, Json.compactChars, readString?_quote]

/-! ## §2 Messages -/

/-- The message of a request has the URL and the body that its content is made of. -/
theorem compose?_inversion {readUrl : UrlReader} {form : Bool} {r : Request} {m : Message}
    (h : Message.compose? readUrl form r = some m) :
    ∃ url, readUrl r.url = some url ∧ r.headers.all isHeader = true ∧
      m.body = (content form r url).2.1 ∧ m.url = (content form r url).2.2 := by
  obtain ⟨url, hurl, hrest⟩ := Option.bind_eq_some_iff.1 h
  obtain ⟨⟨⟩, hguard, hmessage⟩ := Option.bind_eq_some_iff.1 hrest
  refine ⟨url, hurl, ?_, ?_⟩
  · exact (Option.guard_eq_some' ()).1 hguard
  · cases hmessage
    exact ⟨rfl, rfl⟩

/-- What is sent for a request, its URL being read by `readUrl`. No law says how URLs are read: the
reader may refuse what it likes, and a URL that it has read is kept except for the query of a
`GET`. -/
structure EncodingLaws (readUrl : UrlReader) (form : Bool) (r : Request) : Prop where
  /-- A message is sent exactly if the URL names an endpoint and HTTP allows the headers. -/
  sent : (Message.compose? readUrl form r).isSome = true ↔
    (readUrl r.url).isSome = true ∧ r.headers.all isHeader = true
  /-- With `GET` the parameters are added to the query of the URL. -/
  get : r.method = .get → ∀ m, Message.compose? readUrl form r = some m →
    ∃ url added, readUrl r.url = some url ∧
      m.url = { url with query := some (url.kept ++ added) } ∧
      m.body = "" ∧ readForm added = expectedPairs r ∧ m.url.pairs = url.pairs ++ expectedPairs r
  /-- With `POST` they are the body, as a form or as JSON, and the URL is left as it is. -/
  post : r.method = .post → ∀ m, Message.compose? readUrl form r = some m →
    readUrl r.url = some m.url ∧
      (form = true → readForm m.body.toList = expectedPairs r) ∧
      (form = false → CarriesJson r m.body)
  /-- The text of the variables is well formed by itself. -/
  values : Draft.ofText? (Json.object r.values).compact =
    some (.written 0 (.object r.values))

/-- **Every request is carried as its protocol asks for**, whatever reads its URL: in the query of
the URL with `GET`, in a form or a JSON object with `POST`, and not at all if URL or headers are
unusable. -/
theorem encodingLaws (readUrl : UrlReader) (form : Bool) (r : Request) :
    EncodingLaws readUrl form r := by
  constructor
  case sent =>
    constructor
    · intro hsome
      obtain ⟨m, hm⟩ := Option.isSome_iff_exists.1 hsome
      -- A message is composed if the URL can be read and every header may be sent, or not at all
      obtain ⟨url, hurl, hheaders, -⟩ := compose?_inversion hm
      exact ⟨Option.isSome_iff_exists.2 ⟨url, hurl⟩, hheaders⟩
    · rintro ⟨hsome, hheaders⟩
      obtain ⟨url, hurl⟩ := Option.isSome_iff_exists.1 hsome
      have hguard := (Option.guard_eq_some' ()).2 hheaders
      rw [Message.compose?, hurl, Option.bind_eq_bind, Option.bind_some, hguard]
      rfl
  case get =>
    intro hmethod m hm
    obtain ⟨url, hurl, -, hbody, hsent⟩ := compose?_inversion hm
    rw [content, hmethod] at hbody hsent
    refine ⟨url, formChars (parameters r), hurl, ?_, hbody, readForm_parameters r, ?_⟩
    · rw [hsent, Url.addParameters_eq]
    · rw [hsent, Url.addParameters_eq, Url.pairs, Option.getD_some, Url.readForm_kept_append,
        readForm_parameters]
  case post =>
    intro hmethod m hm
    obtain ⟨url, hurl, -, hbody, hsent⟩ := compose?_inversion hm
    rw [content, hmethod] at hbody hsent
    -- The option chooses between the two bodies, and each has its own law
    cases form with
    | true =>
      refine ⟨by rw [hurl, hsent]; rfl, fun _ => ?_, fun h => absurd h (by decide)⟩
      rw [hbody]
      simp only [if_true, String.toList_ofList]
      exact readForm_parameters r
    | false =>
      refine ⟨by rw [hurl, hsent]; rfl, fun h => absurd h (by decide), fun _ => ?_⟩
      rw [hbody]
      exact carriesJson_jsonBody r
  case values => exact Draft.ofText?_compact _

end QueryWeave.Http
