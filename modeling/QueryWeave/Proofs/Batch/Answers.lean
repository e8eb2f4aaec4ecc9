import QueryWeave.Proofs.Batch.Naming
import QueryWeave.Proofs.Batch.Places
import QueryWeave.Proofs.Names
import QueryWeave.Proofs.Operation.Compile

/-!
# Every Caller Gets Its Own Answer

A settled commit cuts the data of one response into one part for each entry. The part of an entry
is looked up under the entry's own keys, and nothing else in the data bears on it. The keys of
entries with different aliases never coincide, so whatever the entries' own data is, one response
can carry it all, and every entry gets back exactly its own.

- `dataFor_names`, `find?_dataFor`: the part of one entry.
- `aliased_ne`: keys of different entries differ.
- `settle_returns_own`: the answers of a whole commit.
-/

namespace QueryWeave

/-! ## §1 The part of one entry -/

/-- The keys that the caller of an entry expects, once for each field, in order. -/
def Entry.expectedKeys (entry : Entry) : List String :=
  entry.fields.map ResponseField.expected

/-- The fields of an entry come back under the entry's names. -/
def Entry.Namespaced (entry : Entry) : Prop :=
  ∀ field ∈ entry.fields, field.aliased = entryName entry.aliasName field.expected

theorem Woven.namespaced {lib : Library} {template : Template} {values : JsonObject}
    {entry : Entry} (w : Woven lib template values entry) : entry.Namespaced := by
  intro field hfield
  obtain ⟨aliased, haliased, heq⟩ := Option.map_eq_some_iff.1 w.aliases
  have hfields : aliased.fields = entry.fields := congrArg Prod.snd heq
  exact aliased_of_mem_aliasRow haliased (hfields ▸ hfield)

namespace Commit

/-- The part of an entry binds each expected key to the value under its aliased key. -/
theorem dataFor_eq {entry : Entry} (h : entry.Namespaced) (data : JsonObject) :
    dataFor data entry = entry.expectedKeys.foldl
      (fun known key => Bindings.put key (valueIn data (entryName entry.aliasName key)) known)
      [] := by
  unfold dataFor Entry.expectedKeys
  rw [List.foldl_map]
  apply List.foldl_ext
  intro known field hfield
  rw [h field hfield]

/-- The keys of the part, in the order in which the fields are first selected. -/
theorem dataFor_names {entry : Entry} (h : entry.Namespaced) (data : JsonObject) :
    Bindings.names (dataFor data entry) = Names.distinct entry.expectedKeys := by
  rw [dataFor_eq h, Bindings.names_foldl_put]
  rfl

theorem find?_dataFor {entry : Entry} (h : entry.Namespaced) (data : JsonObject)
    (key : String) :
    Bindings.find? key (dataFor data entry) =
      if key ∈ entry.expectedKeys then some (valueIn data (entryName entry.aliasName key))
      else none := by
  rw [dataFor_eq h]
  exact Bindings.find?_foldl_put (fun k => valueIn data (entryName entry.aliasName k)) _ [] key

/-- Only the data under the entry's own keys matters. -/
theorem dataFor_congr {entry : Entry} {data other : JsonObject}
    (hsame : ∀ field ∈ entry.fields,
      Bindings.find? field.aliased data = Bindings.find? field.aliased other) :
    dataFor data entry = dataFor other entry := by
  unfold dataFor
  apply List.foldl_ext
  intro known field hfield
  rw [valueIn, valueIn, hsame field hfield]

end Commit

/-! ## §2 Entries of a session -/

namespace Session

/-- What is merged from a template was woven from it, under the alias of a code. -/
theorem MergedFrom.woven {s : Session} {steps : List SessionStep} {lib : Library}
    {template : Template} {values : JsonObject} {entry : Entry}
    (h : s.MergedFrom steps lib template values entry) :
    (∃ code, entry.aliasName = aliasOfCode code) ∧ Nonempty (Woven lib template values entry) := by
  obtain ⟨before, after, -, hweave⟩ := h
  obtain ⟨⟨-, halias, -⟩, hwoven⟩ := Entry.woven_of_weave hweave
  exact ⟨⟨_, halias⟩, hwoven⟩

/-- Every entry of a run was merged from some template. By induction on the run: an entry merged
later has its origin in a later step, seen from the session behind the earlier ones. -/
theorem exists_mergedFrom {s : Session} {steps : List SessionStep} {entry : Entry}
    (h : entry ∈ s.mergedIn steps) : ∃ lib template values,
      s.MergedFrom steps lib template values entry := by
  induction steps generalizing s with
  | nil => simp [mergedIn] at h
  | cons next rest ih =>
    rcases List.mem_append.1 h with hhere | hlater
    · -- Only a merge that succeeds adds an entry
      cases next with
      | merge lib batchKey template values =>
        simp only [mergedBy] at hhere
        cases hweave : s.weaving lib batchKey template values with
        | error e => simp [hweave, Except.toOption] at hhere
        | ok woven =>
          simp only [hweave, Except.toOption, Option.toList_some, List.mem_singleton] at hhere
          subst hhere
          obtain ⟨⟨-, -, rfl⟩, -⟩ := Entry.woven_of_weave hweave
          exact ⟨lib, template, values, [], rest, rfl, hweave⟩
      | _ => simp [mergedBy] at hhere
    · obtain ⟨lib, template, values, before, after, rfl, hweave⟩ := ih hlater
      exact ⟨lib, template, values, next :: before, after, rfl, hweave⟩

/-- Every entry merged in a run was woven under the alias of a code. -/
theorem woven_of_mem_mergedIn {s : Session} {steps : List SessionStep} {entry : Entry}
    (h : entry ∈ s.mergedIn steps) :
    ∃ lib template values code, entry.aliasName = aliasOfCode code ∧
      Nonempty (Woven lib template values entry) := by
  obtain ⟨lib, template, values, hmerged⟩ := exists_mergedFrom h
  obtain ⟨⟨code, halias⟩, hwoven⟩ := hmerged.woven
  exact ⟨lib, template, values, code, halias, hwoven⟩

/-- Keys of entries with different aliases differ. An alias is followed by an underscore and has
none of its own, so it can be told from the key behind it. -/
theorem aliased_ne {s : Session} {steps : List SessionStep} {first second : Entry}
    (hfirst : first ∈ s.mergedIn steps) (hsecond : second ∈ s.mergedIn steps)
    (hne : first.aliasName ≠ second.aliasName) (key other : String) :
    entryName first.aliasName key ≠ entryName second.aliasName other := by
  obtain ⟨-, -, -, code, halias, -⟩ := woven_of_mem_mergedIn hfirst
  obtain ⟨-, -, -, code', halias', -⟩ := woven_of_mem_mergedIn hsecond
  intro heq
  rw [halias, halias'] at heq hne
  exact hne (entryName_inj heq).1

theorem namespaced_of_mem_mergedIn {s : Session} {steps : List SessionStep} {entry : Entry}
    (h : entry ∈ s.mergedIn steps) : entry.Namespaced := by
  obtain ⟨lib, template, values, code, -, ⟨w⟩⟩ := woven_of_mem_mergedIn h
  exact w.namespaced

/-- Entries with distinct aliases have no name in common. -/
theorem pairwise_entryName_ne {s : Session} {steps : List SessionStep} {entries : List Entry}
    (hmerged : ∀ entry ∈ entries, entry ∈ s.mergedIn steps)
    (hdistinct : (entries.map Entry.aliasName).Nodup) :
    entries.Pairwise fun first second => ∀ key other,
      entryName first.aliasName key ≠ entryName second.aliasName other := by
  rw [List.Nodup, List.pairwise_map] at hdistinct
  apply hdistinct.imp_of_mem
  intro first second hfirst hsecond hne
  exact aliased_ne (hmerged first hfirst) (hmerged second hsecond) hne

/-- Nor do their fields come back under the same keys. -/
theorem pairwise_aliased_ne {s : Session} {steps : List SessionStep} {entries : List Entry}
    (hmerged : ∀ entry ∈ entries, entry ∈ s.mergedIn steps)
    (hdistinct : (entries.map Entry.aliasName).Nodup) :
    entries.Pairwise fun first second => ∀ field ∈ first.fields, ∀ other ∈ second.fields,
      field.aliased ≠ other.aliased := by
  have hapart := pairwise_entryName_ne hmerged hdistinct
  apply hapart.imp_of_mem
  intro first second hfirst hsecond hne field hfield other hother
  rw [namespaced_of_mem_mergedIn (hmerged first hfirst) field hfield,
    namespaced_of_mem_mergedIn (hmerged second hsecond) other hother]
  exact hne _ _

/-! ## §3 One response for all entries

Given what each entry would be answered by itself, one response is written down that gives all of
them these answers at once. That there is such a response is what makes the entries independent. -/

/-- The own data of several entries in one response, under the keys of each entry. -/
def responseOf (own : Entry → JsonObject) (entries : List Entry) : JsonObject :=
  entries.flatMap fun entry =>
    (own entry).map fun binding => (entryName entry.aliasName binding.1, binding.2)

/-- The response binds the keys of each entry to that entry's own values. Aliases are apart, so no
entry that is answered later overwrites what an earlier one has. -/
theorem find?_responseOf {own : Entry → JsonObject} {entries : List Entry}
    (hapart : entries.Pairwise fun first second => ∀ key other,
      entryName first.aliasName key ≠ entryName second.aliasName other)
    {entry : Entry} (hentry : entry ∈ entries) {key : String} {value : Json}
    (hvalue : Bindings.find? key (own entry) = some value) :
    Bindings.find? (entryName entry.aliasName key) (responseOf own entries) = some value := by
  induction entries with
  | nil => simp at hentry
  | cons first rest ih =>
    rw [List.pairwise_cons] at hapart
    rw [responseOf, List.flatMap_cons, Bindings.find?_append]
    rcases List.mem_cons.1 hentry with rfl | hrest
    · have hhere := Bindings.find?_map_key (entryName entry.aliasName)
        (fun _ _ => entryName_cancel) key (own entry)
      rw [hhere, hvalue, Option.some_or]
    · -- The keys of the first entry are other keys
      have hmiss : Bindings.find? (entryName entry.aliasName key)
          ((own first).map fun binding => (entryName first.aliasName binding.1, binding.2)) =
            none := by
        rw [Bindings.find?_eq_none_iff, Bindings.names, List.map_map, List.mem_map]
        rintro ⟨binding, -, heq⟩
        exact hapart.1 entry hrest binding.1 key heq
      rw [hmiss, Option.none_or]
      exact ih hapart.2 hrest

/-! ## §4 The answers of a commit -/

/-- The result of an entry once the prepared commit of a number is settled with data. -/
def answerTo (s : Session) (number : Nat) (data : JsonObject) (entry : Entry) :
    Option OperationResult :=
  (s.settle number (.ok data)).1.result? entry.ticket

/-- What the entries of a prepared commit get when it is settled with data. The first law says what
an entry gets from any data at all; the next two say that all entries can be served by one response,
and that each of them gets back what it would have got by itself. -/
structure AnswerLaws (s : Session) (number : Nat) (held : Commit) : Prop where
  /-- An entry gets its expected keys in the order in which they are first selected, each with
  the value under its aliased key, and null where the data has none. -/
  part : ∀ data, ∀ entry ∈ held.entries, ∃ own,
    s.answerTo number data entry = some (.ok own) ∧
    Bindings.names own = Names.distinct entry.expectedKeys ∧
    ∀ key, Bindings.find? key own =
      if key ∈ entry.expectedKeys
      then some ((Bindings.find? (entryName entry.aliasName key) data).getD .null) else none
  /-- Whatever the own data of each entry is, an entry gets its own back from any response that
  carries the own data of all of them. -/
  returned : ∀ own : Entry → JsonObject,
    (∀ entry ∈ held.entries, ∀ key,
      key ∈ Bindings.names (own entry) ↔ key ∈ entry.expectedKeys) →
    ∀ data, (∀ entry ∈ held.entries, ∀ key value, Bindings.find? key (own entry) = some value →
      Bindings.find? (entryName entry.aliasName key) data = some value) →
    ∀ entry ∈ held.entries, ∃ result, s.answerTo number data entry = some (.ok result) ∧
      Bindings.names result = Names.distinct entry.expectedKeys ∧
      ∀ key, Bindings.find? key result = Bindings.find? key (own entry)
  /-- There is such a response. -/
  possible : ∀ own : Entry → JsonObject, ∃ data, ∀ entry ∈ held.entries, ∀ key value,
    Bindings.find? key (own entry) = some value →
      Bindings.find? (entryName entry.aliasName key) data = some value
  /-- Only what stands under an entry's own keys bears on its result. -/
  independent : ∀ data other, ∀ entry ∈ held.entries,
    (∀ field ∈ entry.fields,
      Bindings.find? field.aliased data = Bindings.find? field.aliased other) →
    s.answerTo number data entry = s.answerTo number other entry
  /-- The keys of two entries never coincide. -/
  apart : held.entries.Pairwise fun first second => ∀ field ∈ first.fields,
    ∀ other ∈ second.fields, field.aliased ≠ other.aliased

/-- **Every caller gets its own answer**, from every prepared commit of every run whose entries have
distinct aliases. Aliases are drawn at random, and two entries may draw the same one; what is then
under a key is meant for both. -/
theorem settle_returns_own (codes : AliasCodes) (steps : List SessionStep) (number : Nat)
    (held : Commit) (hheld : ((start codes).run steps).prepared? number = some held)
    (hdistinct : (held.entries.map Entry.aliasName).Nodup) :
    AnswerLaws ((start codes).run steps) number held := by
  have hsound := sound_run codes steps
  have hmerged : ∀ entry ∈ held.entries, entry ∈ (start codes).mergedIn steps :=
    fun entry hentry => (hsound.holds held (mem_commits_of_prepared? hheld) entry hentry).1
  have hnamespaced : ∀ entry ∈ held.entries, entry.Namespaced :=
    fun entry hentry => namespaced_of_mem_mergedIn (hmerged entry hentry)
  have hanswer : ∀ data, ∀ entry ∈ held.entries,
      ((start codes).run steps).answerTo number data entry =
        some (.ok (Commit.dataFor data entry)) :=
    fun data entry hentry => ((hsound.consumeLaws hheld).settled (.ok data)).2 entry hentry
  constructor
  · intro data entry hentry
    refine ⟨_, hanswer data entry hentry, ?_, ?_⟩
    · exact Commit.dataFor_names (hnamespaced entry hentry) data
    · exact Commit.find?_dataFor (hnamespaced entry hentry) data
  · intro own hkeys data hdata entry hentry
    refine ⟨_, hanswer data entry hentry, ?_, ?_⟩
    · exact Commit.dataFor_names (hnamespaced entry hentry) data
    · intro key
      rw [Commit.find?_dataFor (hnamespaced entry hentry)]
      -- A key that the entry expects is bound in its own data, and so in the response
      cases hown : Bindings.find? key (own entry) with
      | none =>
        have hno : key ∉ entry.expectedKeys := fun hexpected =>
          Bindings.find?_eq_none_iff.1 hown ((hkeys entry hentry key).2 hexpected)
        rw [if_neg hno]
      | some value =>
        have hmem := Bindings.mem_of_find? hown
        have hyes : key ∈ entry.expectedKeys :=
          (hkeys entry hentry key).1 (List.mem_map_of_mem (f := Prod.fst) hmem)
        rw [if_pos hyes, Commit.valueIn, hdata entry hentry key value hown, Option.getD_some]
  · intro own
    refine ⟨responseOf own held.entries, fun entry hentry key value hvalue => ?_⟩
    exact find?_responseOf (pairwise_entryName_ne hmerged hdistinct) hentry hvalue
  · intro data other entry hentry hsame
    rw [hanswer data entry hentry, hanswer other entry hentry, Commit.dataFor_congr hsame]
  · exact pairwise_aliased_ne hmerged hdistinct

/-- Two operations that select a field of the same name, one of them twice, in one batch. -/
def twoPosts : List SessionStep :=
  [.merge .empty "page" (.prepare .query "{ post a: post post }") [],
    .merge .empty "page" (.prepare .query "{ post }") [],
    .commit "page"]

/-- What is prepared for them: their aliases, and the keys that their callers expect. Neither of
them spreads a fragment, so the library plays no part in it. -/
theorem prepared_twoPosts : (((start ⟨1, [2]⟩).run twoPosts).prepared? 0).map (fun held =>
      (held.entries.map Entry.aliasName, held.entries.map Entry.expectedKeys)) =
    some (["merge0001", "merge0002"], [["post", "a", "post"], ["post"]]) := by
  have hfirst : Template.prepare .query "{ post a: post post }" =
      ⟨.query, "query { post a: post post } "⟩ := by decide +kernel
  have hsecond : Template.prepare .query "{ post }" = ⟨.query, "query { post } "⟩ := by
    decide +kernel
  -- Neither operation spreads a fragment
  have hcompileFirst : Library.empty.compile ⟨.query, "query { post a: post post } "⟩ [] true =
      .ok ⟨.query, none, [], "query { post a: post post } ", [], [], []⟩ :=
    Library.empty.compile_of_no_spreads (by decide +kernel) (by decide +kernel)
  have hcompileSecond : Library.empty.compile ⟨.query, "query { post } "⟩ [] true =
      .ok ⟨.query, none, [], "query { post } ", [], [], []⟩ :=
    Library.empty.compile_of_no_spreads (by decide +kernel) (by decide +kernel)
  simp only [twoPosts, run_cons, run_nil, step, merge, Entry.weave, hfirst, hsecond,
    hcompileFirst, hcompileSecond]
  decide +kernel

theorem settle_returns_own_twoPosts :
    ∃ held, ((start ⟨1, [2]⟩).run twoPosts).prepared? 0 = some held ∧
      (held.entries.map Entry.aliasName).Nodup ∧
      AnswerLaws ((start ⟨1, [2]⟩).run twoPosts) 0 held := by
  obtain ⟨held, hheld, hparts⟩ := Option.map_eq_some_iff.1 prepared_twoPosts
  have hdistinct : (held.entries.map Entry.aliasName).Nodup := by
    rw [(Prod.mk.inj hparts).1]
    decide
  exact ⟨held, hheld, hdistinct, settle_returns_own _ _ 0 held hheld hdistinct⟩

end Session

end QueryWeave
