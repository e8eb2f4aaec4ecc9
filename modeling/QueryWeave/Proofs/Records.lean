import QueryWeave.Options
import QueryWeave.Proofs.Json.Settled
import QueryWeave.Response

/-!
# Records Written and Read

Responses and options as JSON values. What is written leaves out empty lists of errors, and paths
and extensions that are absent; what is read supplies what is missing. The two fit together: a
record is read back from the value written for it, if it binds no name twice, and whatever was read
is such a record.

- `ServerError.settled_of_ofDraft?`, `Response.settled_of_ofDraft?`,
  `ClientOptions.settled_of_ofDraft?`: what is read binds no name twice.
- `serializationLaws`: writing and reading again.
-/

namespace QueryWeave

/-! ## §1 Records that bind no name twice -/

/-- An error whose path and extensions are settled. -/
structure ServerError.Settled (e : ServerError) : Prop where
  path : ∀ items, e.path = some items → (Json.array items).Settled
  extensions : ∀ members, e.extensions = some members → (Json.object members).Settled

/-- A response whose data and errors are settled. -/
structure Response.Settled (r : Response) : Prop where
  data : ∀ members, r.data = some members → (Json.object members).Settled
  errors : ∀ e ∈ r.errors, e.Settled

/-- Options without repeated headers. -/
def ClientOptions.Settled (o : ClientOptions) : Prop :=
  (Bindings.names o.headers).Nodup

/-- Whether the records that `write` writes as values are read back by `read`. The second part is
not a case of the first: it is about values in all forms that `read` accepts, the array form
included. -/
structure ComesBack {α : Type} (read : Json → Option α) (write : α → Json) (Settled : α → Prop) :
    Prop where
  /-- Exactly the records that bind no name twice are read back as they are. -/
  settled : ∀ x, read (write x) = some x ↔ Settled x
  /-- Whatever was read from a value, in whichever form, is read back as it is. -/
  again : ∀ value x, read value = some x → read (write x) = some x

/-- Reading and writing fit together if what is read binds no name twice, and what binds no name
twice is read back. Both records are treated by this lemma alone. -/
theorem comesBack {α : Type} {read : Json → Option α} {write : α → Json} {Settled : α → Prop}
    (hread : ∀ value x, read value = some x → Settled x)
    (hwritten : ∀ x, Settled x → read (write x) = some x) : ComesBack read write Settled where
  settled x := ⟨hread (write x) x, hwritten x⟩
  again value x h := hwritten x (hread value x h)

/-! ## §2 Errors -/

namespace ServerError

theorem settled_of_ofDraft? {draft : Draft} {e : ServerError} (h : ofDraft? draft = some e) :
    e.Settled := by
  -- Reading succeeds step by step: the record, and then each of its fields
  obtain ⟨parts, -, hparts⟩ := Option.bind_eq_some_iff.1 h
  split at hparts
  · obtain ⟨message, -, hrest⟩ := Option.bind_eq_some_iff.1 hparts
    obtain ⟨path, hpath, hrest⟩ := Option.bind_eq_some_iff.1 hrest
    obtain ⟨extensions, hextensions, heq⟩ := Option.bind_eq_some_iff.1 hrest
    cases heq
    constructor
    case path =>
      rintro items rfl
      obtain ⟨part, hitems⟩ := Draft.exists_of_nullable hpath
      exact Draft.settled_of_items? hitems
    case extensions =>
      rintro members rfl
      obtain ⟨part, hmembers⟩ := Draft.exists_of_nullable hextensions
      exact Draft.settled_of_object? hmembers
  · cases hparts

/-- The parts that an error is read back from: its path and its extensions are there if present. -/
theorem record?_toJson (e : ServerError) :
    Draft.record? ["message", "path", "extensions"] (Draft.ofJson e.toJson) =
      some [some (.string e.message), (e.path.map Json.array).map Draft.ofJson,
        (e.extensions.map Json.object).map Draft.ofJson] := by
  obtain ⟨message, path, extensions⟩ := e
  -- No name is written twice, whichever of the optional members are there
  have hnames : (Bindings.names (("message", Json.string message) ::
      optionalMember "path" Json.array path ++
        optionalMember "extensions" Json.object extensions)).Nodup := by
    cases path <;> cases extensions <;> simp [optionalMember]
  rw [toJson, Draft.record?_ofMembers hnames]
  cases path <;> cases extensions <;> rfl

theorem ofDraft?_toJson {e : ServerError} (h : e.Settled) :
    ofDraft? (Draft.ofJson e.toJson) = some e := by
  have hpath : Draft.fieldOr none (Draft.nullable Draft.items?)
      ((e.path.map Json.array).map Draft.ofJson) = some e.path :=
    Draft.fieldOr_nullable_map fun items hitems => (h.path items hitems).nullable_items?_ofJson
  have hextensions : Draft.fieldOr none (Draft.nullable Draft.object?)
      ((e.extensions.map Json.object).map Draft.ofJson) = some e.extensions :=
    Draft.fieldOr_nullable_map fun members hmembers =>
      (h.extensions members hmembers).nullable_object?_ofJson
  rw [ofDraft?, record?_toJson]
  simp only [Option.bind_eq_bind, Option.bind_some, hpath, hextensions]
  rfl

/-- Errors that are read from a list are read from its items. -/
theorem settled_of_listOfDraft? {draft : Draft} {errors : List ServerError}
    (h : listOfDraft? draft = some errors) : ∀ e ∈ errors, e.Settled := by
  cases draft with
  | array items =>
    rw [listOfDraft?] at h
    -- Item by item, as the list is read
    induction items generalizing errors with
    | nil =>
      cases h
      simp
    | cons item rest ih =>
      rw [List.mapM_cons] at h
      obtain ⟨e, he, hrest⟩ := Option.bind_eq_some_iff.1 h
      obtain ⟨others, hothers, heq⟩ := Option.bind_eq_some_iff.1 hrest
      cases heq
      exact List.forall_mem_cons.2 ⟨settled_of_ofDraft? he, ih hothers⟩
  | _ => cases h

theorem listOfDraft?_listToJson {errors : List ServerError} (h : ∀ e ∈ errors, e.Settled) :
    listOfDraft? (Draft.ofJson (listToJson errors)) = some errors := by
  rw [listToJson, Draft.ofJson, listOfDraft?, Draft.ofItems_eq_map, List.map_map]
  induction errors with
  | nil => rfl
  | cons e rest ih =>
    obtain ⟨he, hrest⟩ := List.forall_mem_cons.1 h
    rw [List.map_cons, List.mapM_cons, Function.comp_apply, ofDraft?_toJson he, ih hrest]
    rfl

end ServerError

/-! ## §3 Responses -/

namespace Response

theorem settled_of_ofDraft? {draft : Draft} {r : Response} (h : ofDraft? draft = some r) :
    r.Settled := by
  obtain ⟨parts, -, hparts⟩ := Option.bind_eq_some_iff.1 h
  split at hparts
  · obtain ⟨data, hdata, hrest⟩ := Option.bind_eq_some_iff.1 hparts
    obtain ⟨errors, herrors, heq⟩ := Option.bind_eq_some_iff.1 hrest
    cases heq
    constructor
    case data =>
      rintro members rfl
      obtain ⟨part, hmembers⟩ := Draft.exists_of_nullable hdata
      exact Draft.settled_of_object? hmembers
    case errors =>
      obtain rfl | ⟨part, hpart⟩ := Draft.fieldOr_inversion herrors
      · simp
      · exact ServerError.settled_of_listOfDraft? hpart
  · cases hparts

/-- The parts that a response is read back from: its data is there even if it is null, and its
errors are there if there are any. -/
theorem record?_toJson (r : Response) :
    Draft.record? ["data", "errors"] (Draft.ofJson r.toJson) =
      some [some (Draft.ofJson ((r.data.map Json.object).getD .null)),
        if r.errors.isEmpty then none
        else some (Draft.ofJson (ServerError.listToJson r.errors))] := by
  have hnames : (Bindings.names (("data", (r.data.map Json.object).getD .null) ::
      if r.errors.isEmpty then [] else [("errors", ServerError.listToJson r.errors)])).Nodup := by
    split <;> simp
  rw [toJson, Draft.record?_ofMembers hnames]
  split <;> rfl

theorem ofDraft?_toJson {r : Response} (h : r.Settled) :
    ofDraft? (Draft.ofJson r.toJson) = some r := by
  have hdata : Draft.fieldOr none (Draft.nullable Draft.object?)
      (some (Draft.ofJson ((r.data.map Json.object).getD .null))) = some r.data := by
    cases hr : r.data with
    | none => rfl
    | some members => exact (h.data members hr).nullable_object?_ofJson
  have herrors : Draft.fieldOr [] ServerError.listOfDraft?
      (if r.errors.isEmpty then none
        else some (Draft.ofJson (ServerError.listToJson r.errors))) = some r.errors := by
    split
    · -- No list is written, and what stands for its absence is the empty list
      rename_i hnone
      rw [List.isEmpty_iff.1 hnone]
      rfl
    · exact ServerError.listOfDraft?_listToJson h.errors
  rw [ofDraft?, record?_toJson]
  simp only [Option.bind_eq_bind, Option.bind_some, hdata, herrors]
  rfl

end Response

/-! ## §4 Options -/

namespace ClientOptions

theorem settled_of_ofDraft? {draft : Draft} {o : ClientOptions} (h : ofDraft? draft = some o) :
    o.Settled := by
  obtain ⟨parts, -, hparts⟩ := Option.bind_eq_some_iff.1 h
  split at hparts
  · obtain ⟨alwaysAutodeclare, -, hrest⟩ := Option.bind_eq_some_iff.1 hparts
    obtain ⟨headers, hheaders, hrest⟩ := Option.bind_eq_some_iff.1 hrest
    obtain ⟨method, -, heq⟩ := Option.bind_eq_some_iff.1 hrest
    cases heq
    obtain rfl | ⟨part, hpart⟩ := Draft.fieldOr_inversion hheaders
    · exact List.nodup_nil
    · -- Headers are collapsed as they are read
      cases part with
      | object members =>
        obtain ⟨pairs, -, rfl⟩ := Option.map_eq_some_iff.1 hpart
        exact Bindings.nodup_names_collapse pairs
      | _ => cases hpart
  · cases hparts

theorem record?_toJson (o : ClientOptions) :
    Draft.record? ["alwaysAutodeclare", "headers", "method"] (Draft.ofJson o.toJson) =
      some [some (.bool o.alwaysAutodeclare),
        some (Draft.ofJson (.object (o.headers.map fun header => (header.1, .string header.2)))),
        some (.string o.method.name)] := by
  rw [toJson, Draft.record?_ofMembers (by simp)]
  rfl

theorem headersOfDraft?_ofJson {headers : Bindings String} (h : (Bindings.names headers).Nodup) :
    headersOfDraft?
        (Draft.ofJson (.object (headers.map fun header => (header.1, .string header.2)))) =
      some headers := by
  have hmembers : (Draft.ofMembers (headers.map fun header => (header.1, .string header.2))).mapM
      headerOfMember? = some headers := by
    clear h
    induction headers with
    | nil => rfl
    | cons header rest ih =>
      rw [List.map_cons, Draft.ofMembers, List.mapM_cons, ih]
      rfl
  rw [Draft.ofJson, headersOfDraft?, hmembers, Option.map_some, Bindings.collapse_of_nodup h]

theorem ofDraft?_toJson {o : ClientOptions} (h : o.Settled) :
    ofDraft? (Draft.ofJson o.toJson) = some o := by
  have hheaders := headersOfDraft?_ofJson h
  have hmethod : HttpMethod.ofDraft? (.string o.method.name) = some o.method := by
    cases o.method <;> decide
  rw [ofDraft?, record?_toJson]
  simp only [Option.bind_eq_bind, Option.bind_some, Draft.fieldOr, hheaders, hmethod]
  rfl

end ClientOptions

/-! ## §5 Writing and reading again -/

/-- What becomes of responses and options that are written as JSON values and read again. Records
that bind a name twice are excluded: they can be built, but are never read. -/
structure SerializationLaws : Prop where
  responses : ComesBack Response.ofJson? Response.toJson Response.Settled
  /-- A response that was written and read again stands for the same outcome. -/
  outcomes : ∀ r : Response, r.Settled →
    (Response.ofJson? r.toJson).map Response.outcome = some r.outcome
  options : ComesBack ClientOptions.ofJson? ClientOptions.toJson ClientOptions.Settled

/-- **Responses and options survive being written and read.** All forms count: a record may have
been read from an object or from an array, with fields missing or null, and is written in one form
only. -/
theorem serializationLaws : SerializationLaws where
  responses := comesBack (fun _ _ => Response.settled_of_ofDraft?) fun _ => Response.ofDraft?_toJson
  outcomes r h := by
    rw [Response.ofJson?, Response.ofDraft?_toJson h, Option.map_some]
  options :=
    comesBack (fun _ _ => ClientOptions.settled_of_ofDraft?) fun _ => ClientOptions.ofDraft?_toJson

/-- A response in the array form, whose error has an empty path and null for its extensions. -/
example : Response.ofJson? (.array [.null, .array [.array [.string "gone", .array [], .null]]]) =
    some ⟨none, [⟨"gone", some [], none⟩]⟩ := rfl

end QueryWeave
