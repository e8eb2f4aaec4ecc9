import Mathlib.Data.List.TakeWhile
import Mathlib.Tactic.ByContra
import QueryWeave.CommandLine.Run

/-!
# Dry Runs

`compile` shows what `request` sends for one operation. Both load the same libraries, template and
variables and compile the same template, but in different orders and by way of different things: one
has a library, the other a client. So both are told in terms of what is loaded, whatever the order.

- `CompileArguments.document_eq_ok_iff`: when a document is shown.
- `RequestArguments.sends_of_loads`, `RequestArguments.send_inversion`: when a request is sent.
- `dryRunLaws`: the one against the other.
-/

namespace QueryWeave.CommandLine

/-! ## §1 Steps that may fail -/

section Steps

variable {ε ε' α β : Type}

/-- A run of two steps succeeds if both do. -/
theorem bind_eq_ok_iff {x : Except ε α} {next : α → Except ε β} {result : β} :
    (x >>= next) = .ok result ↔ ∃ a, x = .ok a ∧ next a = .ok result := by
  cases x with
  | error e => simp [bind, Except.bind]
  | ok a => simp [bind, Except.bind]

theorem pure_eq_ok_iff {a result : α} : (pure a : Except ε α) = .ok result ↔ a = result := by
  simp [pure, Except.pure]

theorem mapError_eq_ok_iff {x : Except ε α} {f : ε → ε'} {result : α} :
    x.mapError f = .ok result ↔ x = .ok result := by
  cases x with
  | error e => simp [Except.mapError]
  | ok a => simp [Except.mapError]

end Steps

/-- A list is read if each of its entries is. -/
theorem exists_mapM_iff {ε α β : Type} {f : α → Except ε β} {entries : List α} :
    (∃ results, entries.mapM f = .ok results) ↔
      ∀ entry ∈ entries, ∃ result, f entry = .ok result := by
  induction entries with
  | nil => simp [pure, Except.pure]
  | cons entry rest ih =>
    rw [List.forall_mem_cons, ← ih]
    simp only [List.mapM_cons, bind_eq_ok_iff, pure_eq_ok_iff]
    constructor
    · rintro ⟨results, result, hentry, others, hrest, -⟩
      exact ⟨⟨result, hentry⟩, others, hrest⟩
    · rintro ⟨⟨result, hentry⟩, others, hrest⟩
      exact ⟨_, result, hentry, others, hrest, rfl⟩

/-- A header is read if it has a colon. Whether its name and value may be sent is another matter,
and is not decided here. -/
theorem exists_readHeader_iff {text : String} :
    (∃ header, readHeader text = .ok header) ↔ ':' ∈ text.toList := by
  unfold readHeader
  dsimp only
  -- Cutting at the first colon leaves nothing exactly if there is none
  have hnone : text.toList.dropWhile (· ≠ ':') = [] ↔ ':' ∉ text.toList := by
    rw [List.dropWhile_eq_nil_iff]
    constructor
    · intro h hmem
      simpa using h ':' hmem
    · intro h c hc
      have hne : c ≠ ':' := fun heq => h (heq ▸ hc)
      simpa using hne
  split
  · rename_i hdrop
    simpa using hnone.1 hdrop
  · rename_i c value hdrop
    refine ⟨fun _ => ?_, fun _ => ⟨_, rfl⟩⟩
    by_contra hmem
    rw [hnone.2 hmem] at hdrop
    cases hdrop

/-! ## §2 What both commands load

Each command is a row of steps that may fail. Their success is said in one statement for both, so
that the order of the steps is out of the way before the commands are compared. -/

/-- What the arguments of both commands lead to: a library, the template in the file of the
operation, and the variables. Nothing is said of the order in which the files are read, since the
commands differ in it. -/
structure Loads (a : SharedArguments) (fs : Files) (path : String) (lib : Library)
    (template : Template) (values : JsonObject) : Prop where
  library : ∃ trees, a.loadTrees fs = .ok trees ∧ registerTrees .empty trees = .ok lib
  template : a.loadTemplate fs path = .ok template
  values : a.loadVariables fs = .ok values

/-- A document is shown exactly if everything is loaded and the template compiles to it. -/
theorem CompileArguments.document_eq_ok_iff {a : CompileArguments} {fs : Files}
    {document : String} :
    a.document fs = .ok document ↔
      ∃ lib template values compiled, Loads a.shared fs a.operationPath lib template values ∧
        lib.compile template values a.shared.autodeclare = .ok compiled ∧
        compiled.document = document := by
  simp only [CompileArguments.document, bind_eq_ok_iff, mapError_eq_ok_iff, pure_eq_ok_iff]
  constructor
  · rintro ⟨trees, htrees, lib, hlib, template, htemplate, values, hvalues, compiled, hcompile, rfl⟩
    exact ⟨lib, template, values, compiled, ⟨⟨trees, htrees, hlib⟩, htemplate, hvalues⟩, hcompile,
      rfl⟩
  · rintro ⟨lib, template, values, compiled, ⟨⟨trees, htrees, hlib⟩, htemplate, hvalues⟩, hcompile,
      rfl⟩
    exact ⟨trees, htrees, lib, hlib, template, htemplate, values, hvalues, compiled, hcompile, rfl⟩

theorem CompileArguments.run_eq_ok_iff {a : CompileArguments} {fs : Files} {document : String} :
    a.run fs = .ok document ↔ a.document fs = .ok document :=
  mapError_eq_ok_iff

/-- The name of a compiled operation is that in the outline of its template. -/
theorem name_of_compile {lib : Library} {template : Template} {values : JsonObject}
    {whenAbsent : Bool} {compiled : Compiled}
    (h : lib.compile template values whenAbsent = .ok compiled) :
    ∃ outline, Outline.ofText? template.source = some outline ∧ compiled.name = outline.name := by
  unfold Library.compile at h
  split at h
  · cases h
  · rename_i outline houtline
    simp only [bind_eq_ok_iff, pure_eq_ok_iff] at h
    obtain ⟨resolved, -, fragments, -, rfl⟩ := h
    exact ⟨outline, houtline, rfl⟩

/-! ## §3 What is sent -/

namespace RequestArguments

/-- A client takes trees as its library does. The one registers them for `request`, the other for
`compile`, and so the two commands come to the same fragments. -/
theorem addTrees_eq_ok_iff {c next : Client} {trees : List FragmentTree} :
    addTrees c trees = .ok next ↔
      ∃ lib, registerTrees c.library trees = .ok lib ∧ { c with library := lib } = next := by
  induction trees generalizing c with
  | nil => simp [addTrees, registerTrees]
  | cons tree rest ih =>
    -- The client registers the tree in its library, and stops where the library does
    rcases hregister : c.library.registerTree tree with ⟨lib, failure⟩
    cases failure with
    | none => simp [addTrees, registerTrees, Client.addFragments, hregister, ih]
    | some e => simp [addTrees, registerTrees, Client.addFragments, hregister]

/-- The client is made of the library and the headers. -/
theorem client_eq_ok_iff {a : RequestArguments} {fs : Files} {codes : AliasCodes} {c : Client} :
    a.client fs codes = .ok c ↔
      ∃ trees lib headers, a.shared.loadTrees fs = .ok trees ∧
        registerTrees .empty trees = .ok lib ∧ a.headers.mapM readHeader = .ok headers ∧
        c = ⟨some a.url, ⟨a.shared.autodeclare, Bindings.collapse headers, a.method⟩, lib,
          .start codes⟩ := by
  simp only [client, bind_eq_ok_iff, pure_eq_ok_iff, addTrees_eq_ok_iff]
  constructor
  · rintro ⟨trees, htrees, _, ⟨lib, hlib, rfl⟩, headers, hheaders, rfl⟩
    exact ⟨trees, lib, headers, htrees, hlib, hheaders, rfl⟩
  · rintro ⟨trees, lib, headers, htrees, hlib, hheaders, rfl⟩
    exact ⟨trees, htrees, _, ⟨lib, hlib, rfl⟩, headers, hheaders, rfl⟩

/-- The request for a compiled operation. -/
def requestFor (a : RequestArguments) (headers : Bindings String) (compiled : Compiled)
    (values : JsonObject) : Request :=
  { headers := Bindings.collapse headers
    method := a.method
    operationName := compiled.name
    query := compiled.document
    url := a.url
    values := stripModifiers values }

variable {a : RequestArguments} {fs : Files} {codes : AliasCodes} {path : String}

/-- What is sent for one operation is what the client sends for its template. -/
theorem exchange_eq_ok_iff (hpath : a.operationPaths = [path]) {c : Client} {values : JsonObject}
    {exchanged : Exchange (Except CommandError JsonObject)} :
    a.exchange fs c values = .ok exchanged ↔
      ∃ template, a.shared.loadTemplate fs path = .ok template ∧
        (c.run template values).map fromClient = exchanged := by
  unfold exchange
  rw [hpath]
  simp only [bind_eq_ok_iff, pure_eq_ok_iff]

/-- What the client exchanges with the server for a template once everything is loaded. -/
def exchangeFor (a : RequestArguments) (codes : AliasCodes) (lib : Library)
    (headers : Bindings String) (template : Template) (values : JsonObject) :
    Exchange (Except CommandError JsonObject) :=
  (Client.run ⟨some a.url, ⟨a.shared.autodeclare, Bindings.collapse headers, a.method⟩, lib,
    .start codes⟩ template values).map fromClient

/-- It comes to an exchange exactly if everything is loaded and the headers are read. The order in
which this happens is gone from here on. -/
theorem prepared_eq_ok_iff (hpath : a.operationPaths = [path])
    {exchanged : Exchange (Except CommandError JsonObject)} :
    (do
      let c ← a.client fs codes
      let values ← a.shared.loadVariables fs
      a.exchange fs c values) = .ok exchanged ↔
      ∃ lib headers template values, Loads a.shared fs path lib template values ∧
        a.headers.mapM readHeader = .ok headers ∧
        a.exchangeFor codes lib headers template values = exchanged := by
  -- Each step of the preparation is replaced by what its success says
  simp only [bind_eq_ok_iff, exchange_eq_ok_iff hpath, client_eq_ok_iff]
  constructor
  · rintro ⟨c, ⟨trees, lib, headers, htrees, hlib, hheaders, rfl⟩, values, hvalues, template,
      htemplate, rfl⟩
    exact ⟨lib, headers, template, values, ⟨⟨trees, htrees, hlib⟩, htemplate, hvalues⟩, hheaders,
      rfl⟩
  · rintro ⟨lib, headers, template, values, ⟨⟨trees, htrees, hlib⟩, htemplate, hvalues⟩, hheaders,
      rfl⟩
    exact ⟨_, ⟨trees, lib, headers, htrees, hlib, hheaders, rfl⟩, values, hvalues, template,
      htemplate, rfl⟩

/-- If the template compiles, the exchange begins with one request, and else there is none. -/
theorem exchangeFor_of_ok {lib : Library} {template : Template} {values : JsonObject}
    {headers : Bindings String} {compiled : Compiled}
    (hcompile : lib.compile template values a.shared.autodeclare = .ok compiled) :
    ∃ next, a.exchangeFor codes lib headers template values =
      .sends (a.requestFor headers compiled values) next := by
  rw [exchangeFor, Client.run, Client.compile, hcompile]
  exact ⟨_, rfl⟩

theorem exchangeFor_of_error {lib : Library} {template : Template} {values : JsonObject}
    {headers : Bindings String} {e : CompileError}
    (hcompile : lib.compile template values a.shared.autodeclare = .error e) :
    ∃ failure, a.exchangeFor codes lib headers template values = .finished (.error failure) := by
  rw [exchangeFor, Client.run, Client.compile, hcompile]
  exact ⟨_, rfl⟩

/-- If everything is loaded and the template compiles, one request is sent. -/
theorem sends_of_loads (codes : AliasCodes) (hpath : a.operationPaths = [path]) {lib : Library}
    {template : Template} {values : JsonObject} {headers : Bindings String} {compiled : Compiled}
    (hloads : Loads a.shared fs path lib template values)
    (hheaders : a.headers.mapM readHeader = .ok headers)
    (hcompile : lib.compile template values a.shared.autodeclare = .ok compiled) :
    ∃ next, a.send fs codes = .sends (a.requestFor headers compiled values) next := by
  obtain ⟨next, hnext⟩ := exchangeFor_of_ok hcompile
  have hprepared := (prepared_eq_ok_iff hpath).2 ⟨lib, headers, template, values, hloads, hheaders,
    hnext⟩
  exact ⟨next, by rw [send, hprepared]⟩

/-- Either nothing is sent, and an error is reported, or everything was loaded, and the template
compiles to what is sent. -/
theorem send_inversion (hpath : a.operationPaths = [path]) (fs : Files) (codes : AliasCodes) :
    (∃ e, a.send fs codes = .finished (.error e)) ∨
      ∃ lib headers template values compiled, Loads a.shared fs path lib template values ∧
        lib.compile template values a.shared.autodeclare = .ok compiled ∧
        ∃ next, a.send fs codes = .sends (a.requestFor headers compiled values) next := by
  -- Sending fails in the preparation or in compilation, and nowhere else
  cases hprepared : (do
      let c ← a.client fs codes
      let values ← a.shared.loadVariables fs
      a.exchange fs c values) with
  | error e => exact .inl ⟨e, by rw [send, hprepared]⟩
  | ok exchanged =>
    have hsend : a.send fs codes = exchanged := by rw [send, hprepared]
    obtain ⟨lib, headers, template, values, hloads, hheaders, hexchanged⟩ :=
      (prepared_eq_ok_iff hpath).1 hprepared
    rw [hsend, ← hexchanged]
    cases hcompile : lib.compile template values a.shared.autodeclare with
    | error e => exact .inl (exchangeFor_of_error hcompile)
    | ok compiled =>
      exact .inr ⟨lib, headers, template, values, compiled, hloads, hcompile,
        exchangeFor_of_ok hcompile⟩

end RequestArguments

/-! ## §4 One command against the other -/

/-- What a request for one operation carries, if `document` is what the operation compiles to: the
operation name of the header, the values without the modifiers in their keys, the headers with a
later one in the place of an earlier one, and method and URL as they were given. -/
structure Carries (a : RequestArguments) (fs : Files) (path document : String)
    (request : Request) : Prop where
  query : request.query = document
  /-- The name is the one that the operation has in its header. -/
  operationName : ∃ template outline, a.shared.loadTemplate fs path = .ok template ∧
    Outline.ofText? template.source = some outline ∧ request.operationName = outline.name
  values : ∃ values, a.shared.loadVariables fs = .ok values ∧
    request.values = stripModifiers values
  headers : ∃ headers, a.headers.mapM readHeader = .ok headers ∧
    request.headers = Bindings.collapse headers
  method : request.method = a.method
  url : request.url = a.url

/-- How `request` goes with `compile`, both being called with the same arguments for fragments,
variables and operations, and on the same files. The laws cover every way in which either can end;
the headers are read by `request` alone, so the first law asks for headers that can be read. -/
structure DryRunLaws (fs : Files) (codes : AliasCodes) (shown : CompileArguments)
    (sent : RequestArguments) : Prop where
  /-- If a document is shown, and all headers have a colon, one request is sent: it carries the
  document. -/
  sends : ∀ document, shown.run fs = .ok document → (∀ header ∈ sent.headers, ':' ∈ header.toList) →
    ∃ request next, sent.run fs codes = .sends request next ∧
      Carries sent fs shown.operationPath document request
  /-- If none is shown, nothing is sent, and an error is reported. -/
  fails : ∀ message, shown.run fs = .error message →
    ∃ failure, sent.run fs codes = .finished (.error failure)
  /-- Whatever is sent is what is shown. -/
  shows : ∀ request, (sent.run fs codes).request? = some request →
    shown.run fs = .ok request.query

/-- **What is shown for an operation is what is sent for it.** The two commands read their files in
different orders, and may report different errors; but where nothing can be shown, nothing is
sent. -/
theorem dryRunLaws (a : SharedArguments) (path url : String) (form : Bool) (headers : List String)
    (method : HttpMethod) (fs : Files) (codes : AliasCodes) :
    DryRunLaws fs codes ⟨a, path⟩ ⟨a, form, headers, method, [path], url⟩ := by
  constructor
  case sends =>
    intro document hshown hcolons
    obtain ⟨lib, template, values, compiled, hloads, hcompile, rfl⟩ :=
      CompileArguments.document_eq_ok_iff.1 (CompileArguments.run_eq_ok_iff.1 hshown)
    obtain ⟨pairs, hpairs⟩ := exists_mapM_iff.2 fun header hheader =>
      exists_readHeader_iff.2 (hcolons header hheader)
    obtain ⟨next, hsend⟩ := RequestArguments.sends_of_loads codes
      (a := ⟨a, form, headers, method, [path], url⟩) rfl hloads hpairs hcompile
    obtain ⟨outline, houtline, hname⟩ := name_of_compile hcompile
    refine ⟨_, _, by rw [RequestArguments.run, hsend]; rfl, ?_⟩
    exact {
      query := rfl
      operationName := ⟨template, outline, hloads.template, houtline, hname⟩
      values := ⟨values, hloads.values, rfl⟩
      headers := ⟨pairs, hpairs, rfl⟩
      method := rfl
      url := rfl }
  case fails =>
    intro message hshown
    obtain ⟨e, hsend⟩ | ⟨lib, pairs, template, values, compiled, hloads, hcompile, -⟩ :=
      RequestArguments.send_inversion (a := ⟨a, form, headers, method, [path], url⟩) rfl fs codes
    · rw [RequestArguments.run, hsend]
      exact ⟨_, rfl⟩
    · -- What would be sent would be shown
      have hdocument := CompileArguments.run_eq_ok_iff.2 (CompileArguments.document_eq_ok_iff
        (a := ⟨a, path⟩).2 ⟨lib, template, values, compiled, hloads, hcompile, rfl⟩)
      rw [hshown] at hdocument
      cases hdocument
  case shows =>
    intro request hrequest
    obtain ⟨e, hsend⟩ | ⟨lib, pairs, template, values, compiled, hloads, hcompile, next, hsend⟩ :=
      RequestArguments.send_inversion (a := ⟨a, form, headers, method, [path], url⟩) rfl fs codes
    · rw [RequestArguments.run, hsend] at hrequest
      cases hrequest
    · rw [RequestArguments.run, hsend] at hrequest
      cases hrequest
      exact CompileArguments.run_eq_ok_iff.2 (CompileArguments.document_eq_ok_iff.2
        ⟨lib, template, values, compiled, hloads, hcompile, rfl⟩)

end QueryWeave.CommandLine
