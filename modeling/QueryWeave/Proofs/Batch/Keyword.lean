import QueryWeave.Client
import QueryWeave.Proofs.Batch.Origins

/-!
# Opening Keywords

The keyword in front of an operation says what a server does with it. A template that is prepared
opens with one, and a well-formed operation that is sent by itself keeps it. The document of a
batch opens with `query` whatever its templates open with: a batch of mutations is sent as a query.

- `openingKeyword_prepare`: the keyword of a template.
- `openingKeyword_run`: the keyword of an operation that is sent by itself.
- `Session.keywordLaws_commit`: the keyword of a batch.
- `Session.not_keeps_mutation`: a mutation that is committed as a query.
-/

namespace QueryWeave

/-! ## §1 Keywords at the front of a text

The keyword of a text is its first lexeme. It stays what it is as long as the text in front of what
is changed keeps it, and what follows it does not run into it. -/

/-- The keyword that a row of lexemes opens with, if its first lexeme is one. -/
def keywordOf (row : List Lexeme) : Option String :=
  (row.head?.filter Lexeme.isKeyword).map Lexeme.word

/-- The keyword that a text opens with. -/
def openingKeyword (text : String) : Option String :=
  keywordOf (scanText text).lexemes

theorem keywordOf_eq_some_iff {row : List Lexeme} {keyword : String} :
    keywordOf row = some keyword ↔
      ∃ l rest, row = l :: rest ∧ l.isKeyword = true ∧ l.word = keyword := by
  cases row with
  | nil => simp [keywordOf]
  | cons l rest => cases hkeyword : l.isKeyword <;> simp [keywordOf, hkeyword]

theorem keywordOf_append {front : List Lexeme} {keyword : String}
    (h : keywordOf front = some keyword) (behind : List Lexeme) :
    keywordOf (front ++ behind) = some keyword := by
  obtain ⟨l, rest, rfl, hl⟩ := keywordOf_eq_some_iff.1 h
  exact keywordOf_eq_some_iff.2 ⟨l, rest ++ behind, rfl, hl⟩

/-- A keyword is read at the front of a text as long as nothing runs into what it is read from. -/
theorem openingKeyword_of_spells {text : String} {front : List Lexeme} {behind : List Char}
    (htext : text.toList = Lexeme.charsOf front ++ behind) (h : Lexeme.Spells front behind)
    {keyword : String} (hkeyword : keywordOf front = some keyword) :
    openingKeyword text = some keyword := by
  rw [openingKeyword, scanText, htext, scan_of_spells h]
  exact keywordOf_append hkeyword _

/-- Helper: a name stays apart from what follows when more is put behind that separates. -/
private theorem clearOf_append {l : Lexeme} (hkind : l.kind = .name) {following behind : List Char}
    (h : l.clearOf following = true) (hbehind : behind.head?.all Lexeme.separates = true) :
    l.clearOf (following ++ behind) = true := by
  cases following with
  | nil =>
    cases behind with
    | nil => exact l.clearOf_nil
    | cons c rest => exact l.clearOf_of_separates (by simpa using hbehind) rest
  | cons c rest => simpa [Lexeme.clearOf, hkind] using h

/-- A keyword stays in front, whatever is put behind the text that separates. Without a separation
the name in front could go on in what is behind. -/
theorem openingKeyword_append {text behind : String} {keyword : String}
    (h : openingKeyword text = some keyword)
    (hbehind : behind.toList.head?.all Lexeme.separates = true) :
    openingKeyword (text ++ behind) = some keyword := by
  -- The keyword is scanned by itself, and what follows it may change
  obtain ⟨l, rest, hrow, hl⟩ := keywordOf_eq_some_iff.1 h
  have hspells := (spells_scan text.toList).1
  have hchars : Lexeme.charsOf (scanText text).lexemes ++ (scanText text).trailer = text.toList :=
    chars_scan text.toList
  have hscan : (scan text.toList).lexemes = l :: rest := hrow
  rw [hscan] at hspells
  obtain ⟨hgap, hcuts, -⟩ := hspells
  have hkind := Lexeme.isName_of_isKeyword hl.1
  have hwhole := hcuts.whole (.inr (by simp [hkind]))
  have hclear := clearOf_append hkind hcuts.clear hbehind
  have hfront : Lexeme.Spells [l]
      (Lexeme.charsOf rest ++ (scanText text).trailer ++ behind.toList) :=
    ⟨hgap, hwhole.cuts hclear, trivial⟩
  have htext : (text ++ behind).toList = Lexeme.charsOf [l] ++
      (Lexeme.charsOf rest ++ (scanText text).trailer ++ behind.toList) := by
    rw [String.toList_append, ← hchars, hrow]
    simp
  exact openingKeyword_of_spells htext hfront (keywordOf_eq_some_iff.2 ⟨l, [], rfl, hl⟩)

/-! ## §2 Operations by themselves -/

/-- Helper: the keyword of a kind, in front of a blank. -/
private theorem openingKeyword_kind (kind : OperationKind) {text : String} {behind : List Char}
    (htext : text.toList = kind.keyword.toList ++ ' ' :: behind) :
    openingKeyword text = some kind.keyword := by
  -- A keyword is a name, and the blank behind it ends it
  have hname : IsName kind.keyword.toList := by
    cases kind
    · exact ⟨'q', "uery".toList, rfl, by decide, by decide⟩
    · exact ⟨'m', "utation".toList, rfl, by decide, by decide⟩
  have hword : (⟨[], .name, kind.keyword.toList⟩ : Lexeme).isKeyword = true := by
    cases kind <;> decide
  have hblank : Lexeme.separates ' ' = true := by decide
  have hspells : Lexeme.Spells [⟨[], .name, kind.keyword.toList⟩] (' ' :: behind) :=
    readBack_singleton isGap_nil (IsName.whole hname rfl) _ hblank
  exact openingKeyword_of_spells (by simpa using htext) hspells
    (keywordOf_eq_some_iff.2 ⟨_, [], rfl, hword, by simp [Lexeme.word]⟩)

/-- A template that is prepared opens with the keyword that is written, and else with that of its
kind. -/
theorem openingKeyword_prepare (kind : OperationKind) (source : String) :
    openingKeyword (Template.prepare kind source).source =
      some ((openingKeyword source).getD kind.keyword) := by
  unfold Template.prepare
  -- Either the keyword is written already, or that of the kind is put in front
  split
  · rename_i hwritten
    obtain ⟨l, hhead, hkeyword⟩ := (Option.any_eq_true _ _).1 hwritten
    have hsource : openingKeyword source = some l.word := by
      simp [openingKeyword, keywordOf, hhead, hkeyword]
    rw [hsource]
    rfl
  · rename_i hunwritten
    have hsource : openingKeyword source = none := by
      simp only [openingKeyword, keywordOf, Option.map_eq_none_iff, Option.filter_eq_none_iff]
      intro l hl hkeyword
      exact hunwritten (by simp [hl, hkeyword])
    rw [hsource]
    refine @openingKeyword_kind kind _ (source.toList ++ [' ']) ?_
    simp

/-- Helper: the keyword is the first lexeme of what is cut off as the front of an operation. -/
private theorem keywordOf_lead {source : String} {o : Outline}
    (ho : Outline.ofText? source = some o) {keyword : String}
    (hkeyword : openingKeyword source = some keyword) : keywordOf o.lead = some keyword := by
  obtain ⟨l, rest, hrow, hl⟩ := keywordOf_eq_some_iff.1 hkeyword
  obtain ⟨_, _, hcut, -⟩ := Outline.ofScan?_inversion ho
  have hlead : o.lead = (cutLead (scanText source).lexemes).1 := by rw [hcut]
  -- Whether or not a name follows, the front begins with the keyword
  have hfront : ∃ more, (cutLead (l :: rest)).1 = l :: more := by
    simp only [cutLead, hl.1, if_true]
    split
    · exact ⟨[], rfl⟩
    · split
      · exact ⟨_, rfl⟩
      · exact ⟨[], rfl⟩
  obtain ⟨more, hmore⟩ := hfront
  rw [hlead, hrow, hmore]
  exact keywordOf_eq_some_iff.2 ⟨l, more, rfl, hl⟩

section Filled

variable {source : String} {o : Outline}

/-- Helper: a text that goes on with the front of an operation keeps its keyword. -/
private theorem openingKeyword_of_lead (ho : Outline.ofText? source = some o) {keyword : String}
    (hkeyword : openingKeyword source = some keyword) {behind : List Char}
    (hbehind : behind.head?.all Lexeme.separates = true) :
    openingKeyword (String.ofList (Lexeme.charsOf o.lead ++ behind)) = some keyword :=
  openingKeyword_of_spells (String.toList_ofList) (Outline.readBack_lead ho _ hbehind)
    (keywordOf_lead ho hkeyword)

/-- Helper: declarations separate, and so does what they are put into. -/
private theorem separates_insert {front declared behind : List Char}
    (h : (front ++ behind).head?.all Lexeme.separates = true)
    (hdeclared : declared.head?.all Lexeme.separates = true) :
    (front ++ (declared ++ behind)).head?.all Lexeme.separates = true := by
  cases front with
  | cons c rest => exact h
  | nil =>
    cases declared with
    | nil => exact h
    | cons c rest => exact hdeclared

/-- Filling in the signature keeps the keyword. A signature is replaced behind the lead, or inserted
in front of the selection set; either way the keyword is in what stays in front. -/
theorem openingKeyword_declare (ho : Outline.ofText? source = some o) (hlawful : o.Lawful)
    {keyword : String} (hkeyword : openingKeyword source = some keyword) (values : JsonObject)
    (whenAbsent : Bool) :
    openingKeyword (o.declare source values whenAbsent).text = some keyword := by
  have hbehind := Outline.separates_behindSignature ho hlawful
  have hsigned : ∀ ds : List Declaration,
      (signatureChars ds).head?.all Lexeme.separates = true := by
    intro ds
    unfold signatureChars
    split
    · rfl
    · exact (by decide : Lexeme.separates '(' = true)
  unfold Outline.declare
  dsimp only
  split
  · -- What is inferred, or nothing, in the place of the request
    rename_i old hold _
    have hold := Outline.isGap_signature ho hold
    rw [Outline.replaceSignature, List.append_assoc, List.append_assoc]
    apply openingKeyword_of_lead ho hkeyword
    apply separates_gap_append
    · split
      · exact isGap_dropLastBlank hold
      · exact hold
    · exact @separates_insert [] _ _ hbehind (hsigned _)
  · exact hkeyword
  · rename_i hnone
    split
    · -- What is inferred, in front of the selection set
      have hinsertion : ∀ ds : List Declaration,
          (if ds.isEmpty then [] else signatureChars ds ++ [' ']).head?.all
            Lexeme.separates = true := by
        intro ds
        split
        · rfl
        · exact @separates_insert [] _ [' '] (by decide) (hsigned ds)
      have htext : ∀ ds, o.insertSignature ds = Lexeme.charsOf o.lead ++
          ((Lexeme.charsOf o.middle ++ o.selection.opener.gap) ++
            ((if ds.isEmpty then [] else signatureChars ds ++ [' ']) ++
              (o.selection.opener.text ++ Lexeme.charsOf (o.selection.inner ++
                [o.selection.closer] ++ o.after) ++ o.trailer))) := by
        intro ds
        simp [Outline.insertSignature, Outline.signatureRow, hnone]
      rw [htext]
      apply openingKeyword_of_lead ho hkeyword
      apply separates_insert _ (hinsertion _)
      simpa [Outline.behindSignature, Enclosed.row] using hbehind
    · exact hkeyword

end Filled

/-- Resolving the spreads of a text keeps its keyword. -/
theorem openingKeyword_resolve {lib : Library} {text : String} {resolved : Resolved}
    (h : lib.resolve text = .ok resolved) {keyword : String}
    (hkeyword : openingKeyword text = some keyword) :
    openingKeyword resolved.text = some keyword := by
  obtain ⟨l, rest, hrow, hl⟩ := keywordOf_eq_some_iff.1 hkeyword
  obtain ⟨later, hlater⟩ := @respread_head Spread.resolved l rest
  rw [openingKeyword, lib.scan_resolved h, hrow, hlater]
  exact keywordOf_eq_some_iff.2 ⟨l, later, rfl, hl⟩

/-- A well-formed operation is compiled under its own keyword. The three texts on the way keep it
one after the other: the operation with its signature filled in, the resolved one, and the document.
-/
theorem openingKeyword_compile {lib : Library} {template : Template} {values : JsonObject}
    {whenAbsent : Bool} {compiled : Compiled} (hwell : template.WellFormed)
    (h : lib.compile template values whenAbsent = .ok compiled) {keyword : String}
    (hkeyword : openingKeyword template.source = some keyword) :
    openingKeyword compiled.document = some keyword := by
  have hoperation : openingKeyword compiled.operation = some keyword := by
    obtain ⟨o, resolved, ho, hresolve, -, -, hresolved, -⟩ := Library.compile_inversion h
    have hdeclared :=
      openingKeyword_declare ho (hwell.derives.lawful ho) hkeyword values whenAbsent
    rw [hresolved]
    exact openingKeyword_resolve hresolve hdeclared
  -- The definitions of fragments follow behind line feeds
  unfold Compiled.document
  cases hfragments : compiled.fragments with
  | nil => simpa [String.intercalate_singleton] using hoperation
  | cons first rest =>
    rw [String.intercalate_cons_cons, String.append_assoc]
    apply openingKeyword_append hoperation
    rw [String.toList_append]
    exact (by decide : Lexeme.separates '\n' = true)

/-- A well-formed operation that is sent by itself is sent under its own keyword. -/
theorem openingKeyword_run {c : Client} {template : Template} {values : JsonObject}
    {request : Request} (hwell : template.WellFormed)
    (hrun : (c.run template values).request? = some request) {keyword : String}
    (hkeyword : openingKeyword template.source = some keyword) :
    openingKeyword request.query = some keyword := by
  unfold Client.run at hrun
  -- A request is made only if there is a URL and the template compiles
  cases hurl : c.url with
  | none => simp [hurl, Exchange.request?] at hrun
  | some url =>
    cases hcompile : c.compile template values with
    | error e => simp [hurl, hcompile, Exchange.request?] at hrun
    | ok compiled =>
      simp only [hurl, hcompile, Exchange.request?, Option.some.injEq] at hrun
      subst hrun
      exact openingKeyword_compile hwell hcompile hkeyword

/-! ## §3 Batches -/

/-- Whatever is in a batch, its document opens with `query`. -/
theorem Commit.openingKeyword_document (held : Commit) :
    openingKeyword held.document = some "query" := by
  -- With or without declarations the opening begins with the word and a blank
  have hopening : ∃ behind, held.opening.toList = "query".toList ++ ' ' :: behind := by
    unfold opening
    split
    · exact ⟨['{', '\n'], rfl⟩
    · refine ⟨'(' :: (Declaration.listText held.declarations).toList ++ [')', ' ', '{', '\n'], ?_⟩
      simp
  obtain ⟨behind, hbehind⟩ := hopening
  have hdocument : ∃ behind, held.document.toList = "query".toList ++ ' ' :: behind := by
    rw [document, String.append_assoc, String.append_assoc, String.toList_append, hbehind,
      List.append_assoc, List.cons_append]
    exact ⟨_, rfl⟩
  obtain ⟨behind, hdocument⟩ := hdocument
  exact openingKeyword_kind .query hdocument

namespace Session

/-- What a batch is sent under, and what its operations would be sent under by themselves. The first
three laws are about the batch, the last two about a template that is prepared and run alone. -/
structure KeywordLaws (codes : AliasCodes) (steps : List SessionStep) (batchKey : String)
    (held : Commit) : Prop where
  document : openingKeyword held.document = some "query"
  /-- Where all entries come from templates with one keyword, the batch keeps it exactly if it is
  `query`. -/
  kept_iff : ∀ keyword,
    (∀ entry ∈ held.entries, ∀ lib template values,
      (start codes).MergedFrom steps lib template values entry →
        openingKeyword template.source = some keyword) →
    (openingKeyword held.document = some keyword ↔ keyword = "query")
  /-- A client sends the document as it is. -/
  sent : ∀ (c : Client) url, c.session = (start codes).run steps → c.url = some url →
    ∃ request, (c.commit batchKey).request? = some request ∧ request.query = held.document
  /-- A template opens with the keyword that is written, and else with that of its kind. -/
  prepared : ∀ kind source, openingKeyword (Template.prepare kind source).source =
    some ((openingKeyword source).getD kind.keyword)
  /-- An operation that a client sends by itself keeps its keyword. -/
  alone : ∀ (c : Client) template values request keyword, template.WellFormed →
    (c.run template values).request? = some request →
    openingKeyword template.source = some keyword → openingKeyword request.query = some keyword

/-- **The keyword of a batch** is `query`, for every commit of every run, while every operation by
itself keeps the keyword of its template. Documents are read by their first lexeme, so neither
comments nor blanks count. -/
theorem keywordLaws_commit (codes : AliasCodes) (steps : List SessionStep) (batchKey : String)
    (number : Nat) (held : Commit)
    (hcommit : (((start codes).run steps).commit batchKey).2 = .ok (number, held)) :
    KeywordLaws codes steps batchKey held where
  document := held.openingKeyword_document
  kept_iff := by
    intro keyword _
    rw [held.openingKeyword_document, Option.some.injEq]
    exact eq_comm
  sent := by
    intro c url hsession hurl
    -- The client drains the batch that the session would commit
    have hdrain : ∃ drained, c.session.drain batchKey = (drained, .ok held) := by
      rw [hsession]
      unfold commit at hcommit
      split at hcommit
      · cases hcommit
      · rename_i drained prepared hdrain
        cases hcommit
        exact ⟨drained, hdrain⟩
    obtain ⟨drained, hdrain⟩ := hdrain
    simp only [Client.commit, hdrain, hurl, Exchange.request?]
    exact ⟨_, rfl, rfl⟩
  prepared := openingKeyword_prepare
  alone := fun _ _ _ _ _ hwell hrun hkeyword => openingKeyword_run hwell hrun hkeyword

/-- A mutation, by itself in a batch. -/
def savedPost : List SessionStep :=
  [.merge .empty "page" (.prepare .query "mutation {post}") []]

private theorem exists_commit_savedPost :
    ∃ held, (((start ⟨1, []⟩).run savedPost).commit "page").2 = .ok (0, held) ∧
      (held.entries.map Entry.aliasName, held.document) =
        (["merge0001"], "query \x7b\nmerge0001_post:post\n \x7d") := by
  have hprepared : Template.prepare .query "mutation {post}" = ⟨.query, "mutation {post}"⟩ := by
    decide +kernel
  have hcompiled : Library.empty.compile ⟨.query, "mutation {post}"⟩ [] true =
      .ok ⟨.query, none, [], "mutation {post}", [], [], []⟩ :=
    Library.empty.compile_of_no_spreads (by decide +kernel) (by decide +kernel)
  have hrun : (((start ⟨1, []⟩).run savedPost).commit "page").2.toOption.map (fun committed =>
      (committed.1, (committed.2.entries.map Entry.aliasName, committed.2.document))) =
      some (0, (["merge0001"], "query \x7b\nmerge0001_post:post\n \x7d")) := by
    simp only [savedPost, run_cons, run_nil, step, merge, Entry.weave, hprepared,
      hcompiled]
    decide +kernel
  exact exists_of_toOption
    (fun held => (held.entries.map Entry.aliasName, held.document)) hrun

theorem keywordLaws_savedPost :
    ∃ held, (((start ⟨1, []⟩).run savedPost).commit "page").2 = .ok (0, held) ∧
      KeywordLaws ⟨1, []⟩ savedPost "page" held := by
  obtain ⟨held, hcommit, -⟩ := exists_commit_savedPost
  exact ⟨held, hcommit, keywordLaws_commit _ _ _ 0 held hcommit⟩

/-- The one entry comes from a mutation, and what is sent is a query. The document is the same that
a query with these selections would have led to. -/
theorem not_keeps_mutation :
    ∃ held, (((start ⟨1, []⟩).run savedPost).commit "page").2 = .ok (0, held) ∧
      held.entries ≠ [] ∧
      (∀ entry ∈ held.entries, ∀ lib template values,
        (start ⟨1, []⟩).MergedFrom savedPost lib template values entry →
          openingKeyword template.source = some "mutation") ∧
      held.document = "query \x7b\nmerge0001_post:post\n \x7d" ∧
      openingKeyword held.document ≠ some "mutation" := by
  obtain ⟨held, hcommit, hheld⟩ := exists_commit_savedPost
  obtain ⟨haliases, hdocument⟩ := Prod.mk.inj hheld
  have hkeyword : openingKeyword (Template.prepare .query "mutation {post}").source =
      some "mutation" := by
    decide +kernel
  refine ⟨held, hcommit, fun hnone => by simp [hnone] at haliases, ?_, hdocument, ?_⟩
  · intro entry _ lib template values hfrom
    -- The run has one merge, so the entry comes from its template
    have hstep := hfrom.mem
    simp only [savedPost, List.mem_singleton, SessionStep.merge.injEq] at hstep
    rw [hstep.2.2.1]
    exact hkeyword
  · rw [held.openingKeyword_document]
    decide

end Session

end QueryWeave
