import Mathlib.Algebra.Order.BigOperators.Group.List
import Mathlib.Algebra.Order.Group.Nat
import QueryWeave.Proofs.Batch.Answers

/-!
# Aggregates

Besides the answers to its entries, a settled commit has a result of its own: under every name
that some entry selects, a list of the values that the entries get for it. The list grows each
time the name is selected. It holds one value for each entry exactly as long as no entry selects a
name twice; where one does, the value of that entry is repeated.

- `Commit.find?_aggregate`, `Commit.names_aggregate`: what an aggregate is made of.
- `Session.aggregateLaws_run`: the aggregate against the results of the entries, in every run.
- `Session.not_one_value_each`: an entry whose value stands in the list twice.
-/

namespace QueryWeave

namespace Commit

/-! ## §1 Lists that grow -/

/-- The keys that the callers of a commit expect, entry by entry. -/
def expectedKeys (c : Commit) : List String :=
  c.entries.flatMap Entry.expectedKeys

theorem names_foldl_collect (value : ResponseField → Json) (fields : List ResponseField)
    (known : Bindings (List Json)) :
    Bindings.names
        (fields.foldl (fun acc field => collect acc field.expected (value field)) known) =
      Names.addAll (Bindings.names known) (fields.map ResponseField.expected) := by
  induction fields generalizing known with
  | nil => rfl
  | cons field rest ih =>
    rw [List.foldl_cons, ih, collect, Bindings.names_put]
    rfl

/-- The list under a key is continued by the values collected for it, in order. -/
theorem find?_foldl_collect (value : ResponseField → Json) (fields : List ResponseField)
    (known : Bindings (List Json)) (key : String) :
    (Bindings.find? key
        (fields.foldl (fun acc field => collect acc field.expected (value field)) known)).getD [] =
      (Bindings.find? key known).getD [] ++
        (fields.filter fun field => field.expected = key).map value := by
  induction fields generalizing known with
  | nil => simp
  | cons field rest ih =>
    rw [List.foldl_cons, ih, collect]
    -- A value is added to the list under its own name, and the other lists stay
    by_cases hkey : field.expected = key
    · subst hkey
      simp
    · rw [Bindings.find?_put_of_ne (Ne.symm hkey), List.filter_cons_of_neg (by simpa using hkey)]

/-! ## §2 What an aggregate is made of

The aggregate collects field by field, over all entries. Seen from one key this is a list: each
entry gives its own value as often as it selects the key. The lookups are compared, and then the
names. -/

theorem names_aggregate (c : Commit) (data : JsonObject) :
    Bindings.names (c.aggregate data) = Names.distinct c.expectedKeys := by
  have hkeys : c.expectedKeys = (c.entries.flatMap Entry.fields).map ResponseField.expected := by
    rw [List.map_flatMap]
    rfl
  rw [hkeys, Names.distinct, ← Bindings.names_nil,
    ← names_foldl_collect fun field => valueIn data field.aliased]
  simp [aggregate, Bindings.names]

/-- Helper: the values that an entry adds to the list under a key. -/
private theorem map_valueIn_fields {entry : Entry} (h : entry.Namespaced) (data : JsonObject)
    (key : String) :
    (entry.fields.filter fun field => field.expected = key).map
        (fun field => valueIn data field.aliased) =
      List.replicate (entry.expectedKeys.count key)
        (valueIn data (entryName entry.aliasName key)) := by
  rw [List.eq_replicate_iff]
  -- As many fields have the key as there are copies, and each of them looks up one aliased key
  constructor
  · rw [List.length_map, Entry.expectedKeys, List.count, List.countP_map,
      List.countP_eq_length_filter]
    rfl
  · intro value hvalue
    obtain ⟨field, hfield, rfl⟩ := List.mem_map.1 hvalue
    obtain ⟨hmem, hkey⟩ := List.mem_filter.1 hfield
    rw [h field hmem, of_decide_eq_true hkey]

/-- The list under a key: the value of every entry, once for each time it selects the key. The count
is over the expected keys of the entry, so an entry that asks for a field twice adds its value
twice. -/
theorem find?_aggregate {c : Commit} (h : ∀ entry ∈ c.entries, entry.Namespaced)
    (data : JsonObject) {key : String} (hkey : key ∈ c.expectedKeys) :
    Bindings.find? key (c.aggregate data) = some (.array (c.entries.flatMap fun entry =>
      List.replicate (entry.expectedKeys.count key)
        (valueIn data (entryName entry.aliasName key)))) := by
  have hbound : Bindings.find? key (c.aggregate data) ≠ none := by
    rw [ne_eq, Bindings.find?_eq_none_iff, names_aggregate, Names.mem_distinct]
    exact not_not_intro hkey
  have hlist := find?_foldl_collect (fun field => valueIn data field.aliased)
    (c.entries.flatMap Entry.fields) [] key
  rw [aggregate, Bindings.find?_map_value] at hbound ⊢
  -- A name that is bound is bound to what was collected for it
  obtain ⟨values, hvalues⟩ := Option.ne_none_iff_exists'.1
    fun hnone => hbound (Option.map_eq_none_iff.2 hnone)
  rw [hvalues, Option.getD_some, Bindings.find?_nil, Option.getD_none, List.nil_append,
    List.filter_flatMap, List.map_flatMap] at hlist
  rw [hvalues, Option.map_some, hlist]
  congr 2
  exact List.flatMap_congr fun entry hentry => map_valueIn_fields (h entry hentry) data key

end Commit

namespace Session

/-! ## §3 Aggregates and the results of the entries -/

/-- The value under a key in the result of an entry, once the prepared commit of a number is
settled with data. -/
def ownValue? (s : Session) (number : Nat) (data : JsonObject) (key : String) (entry : Entry) :
    Option Json :=
  (s.answerTo number data entry).bind fun result =>
    result.toOption.bind fun own => Bindings.find? key own

/-- Whether under every name that some entry selects stands the list of the entries' own values,
one for each entry that selects the name, the names being in the order in which they are first
selected. -/
structure OneValueEach (s : Session) (number : Nat) (held : Commit) (data aggregate : JsonObject) :
    Prop where
  names : Names.FirstSeen held.expectedKeys (Bindings.names aggregate)
  lists : ∀ key ∈ held.expectedKeys, Bindings.find? key aggregate =
    some (.array (held.entries.filterMap (s.ownValue? number data key)))

/-- What the settlement of a prepared commit returns for data. The first law spells the lists out,
with a value as often as its entry selects the name; the last one says when this is one value for
each entry, as one would expect of a list of the entries' values. -/
structure AggregateLaws (s : Session) (number : Nat) (held : Commit) : Prop where
  /-- It succeeds. The names are those that some entry selects, in the order in which they are
  first selected, and under each stands the own value of every entry in merge order, as often as
  the entry selects the name. -/
  returned : ∀ data, ∃ aggregate, (s.settle number (.ok data)).2 = some (.ok aggregate) ∧
    Names.FirstSeen held.expectedKeys (Bindings.names aggregate) ∧
    ∀ key ∈ held.expectedKeys, Bindings.find? key aggregate =
      some (.array (held.entries.flatMap fun entry =>
        (s.ownValue? number data key entry).toList.flatMap
          (List.replicate (entry.expectedKeys.count key))))
  /-- An entry has a value of its own under exactly the names that it selects. -/
  selects : ∀ data key, ∀ entry ∈ held.entries,
    (s.ownValue? number data key entry).isSome ↔ key ∈ entry.expectedKeys
  /-- There is one value for each entry, for one response or for all, exactly if no entry selects a
  name twice. -/
  one_each : ∀ data aggregate, (s.settle number (.ok data)).2 = some (.ok aggregate) →
    (s.OneValueEach number held data aggregate ↔
      ∀ entry ∈ held.entries, entry.expectedKeys.Nodup)

section Held

variable {codes : AliasCodes} {steps : List SessionStep} {number : Nat} {held : Commit}

/-- Helper: the entries of a prepared commit come back under their own names. -/
private theorem namespaced_of_prepared?
    (hheld : ((start codes).run steps).prepared? number = some held) :
    ∀ entry ∈ held.entries, entry.Namespaced := fun entry hentry =>
  namespaced_of_mem_mergedIn
    ((sound_run codes steps).holds held (mem_commits_of_prepared? hheld) entry hentry).1

theorem settle_ok (hheld : ((start codes).run steps).prepared? number = some held)
    (data : JsonObject) :
    (((start codes).run steps).settle number (.ok data)).2 = some (.ok (held.aggregate data)) := by
  simp only [settle, hheld, distribute]

theorem answerTo_ok (hheld : ((start codes).run steps).prepared? number = some held)
    (data : JsonObject) {entry : Entry} (hentry : entry ∈ held.entries) :
    ((start codes).run steps).answerTo number data entry =
      some (.ok (Commit.dataFor data entry)) :=
  (((sound_run codes steps).consumeLaws hheld).settled (.ok data)).2 entry hentry

theorem ownValue?_eq (hheld : ((start codes).run steps).prepared? number = some held)
    (data : JsonObject) (key : String) {entry : Entry} (hentry : entry ∈ held.entries) :
    ((start codes).run steps).ownValue? number data key entry =
      if key ∈ entry.expectedKeys
      then some (Commit.valueIn data (entryName entry.aliasName key)) else none := by
  rw [ownValue?, answerTo_ok hheld data hentry]
  exact Commit.find?_dataFor (namespaced_of_prepared? hheld entry hentry) data key

/-- Helper: what an entry adds to a list. -/
private theorem replicate_count_eq
    (hheld : ((start codes).run steps).prepared? number = some held) (data : JsonObject)
    (key : String) {entry : Entry} (hentry : entry ∈ held.entries) :
    List.replicate (entry.expectedKeys.count key)
        (Commit.valueIn data (entryName entry.aliasName key)) =
      (((start codes).run steps).ownValue? number data key entry).toList.flatMap
        (List.replicate (entry.expectedKeys.count key)) := by
  rw [ownValue?_eq hheld data key hentry]
  split
  · simp
  · rename_i hnot
    simp [List.count_eq_zero_of_not_mem hnot]

/-- Helper: an entry adds its value once exactly if it selects the key no more than once. -/
private theorem length_replicate_count (own : Option Json) (count : Nat)
    (hown : own.isSome ↔ 0 < count) :
    own.toList.length ≤ (own.toList.flatMap (List.replicate count)).length ∧
      (own.toList.flatMap (List.replicate count) = own.toList ↔ count ≤ 1) := by
  -- Without a value nothing is added, however often the key is selected
  cases own with
  | none =>
    have hzero : count = 0 := by simpa using hown
    simp [hzero]
  | some value =>
    have hpos : 0 < count := hown.1 rfl
    simp only [Option.toList_some, List.flatMap_singleton, List.length_replicate,
      List.length_singleton]
    refine ⟨hpos, ?_⟩
    constructor
    · intro heq
      have hlength := congrArg List.length heq
      simp only [List.length_replicate, List.length_singleton] at hlength
      omega
    · intro hone
      have hcount : count = 1 := by omega
      rw [hcount, List.replicate_one]

/-- Helper: lists put together from longer pieces are the same only piece by piece. -/
private theorem flatMap_eq_flatMap_iff {α β : Type} {first second : α → List β} {items : List α}
    (h : ∀ item ∈ items, (second item).length ≤ (first item).length) :
    items.flatMap first = items.flatMap second ↔ ∀ item ∈ items, first item = second item := by
  induction items with
  | nil => simp
  | cons item rest ih =>
    have hrest : ∀ later ∈ rest, (second later).length ≤ (first later).length :=
      fun later hlater => h later (List.mem_cons_of_mem _ hlater)
    rw [List.forall_mem_cons, ← ih hrest, List.flatMap_cons, List.flatMap_cons]
    constructor
    · intro heq
      -- Neither the first pieces nor the rests can be of different lengths
      have hhere := h item List.mem_cons_self
      have hlater : (rest.flatMap second).length ≤ (rest.flatMap first).length := by
        rw [List.length_flatMap, List.length_flatMap]
        exact List.sum_le_sum hrest
      have hlength := congrArg List.length heq
      rw [List.length_append, List.length_append] at hlength
      exact List.append_inj heq (by omega)
    · rintro ⟨hhere, hlater⟩
      rw [hhere, hlater]

theorem isSome_ownValue?_iff (hheld : ((start codes).run steps).prepared? number = some held)
    (data : JsonObject) (key : String) {entry : Entry} (hentry : entry ∈ held.entries) :
    (((start codes).run steps).ownValue? number data key entry).isSome ↔
      key ∈ entry.expectedKeys := by
  rw [ownValue?_eq hheld data key hentry]
  by_cases hkey : key ∈ entry.expectedKeys
  · simp [hkey]
  · simp [hkey]

/-- The list under a key: the own value of every entry, once for each time it selects the key. -/
theorem find?_aggregate_own (hheld : ((start codes).run steps).prepared? number = some held)
    (data : JsonObject) {key : String} (hkey : key ∈ held.expectedKeys) :
    Bindings.find? key (held.aggregate data) =
      some (.array (held.entries.flatMap fun entry =>
        (((start codes).run steps).ownValue? number data key entry).toList.flatMap
          (List.replicate (entry.expectedKeys.count key)))) := by
  rw [Commit.find?_aggregate (namespaced_of_prepared? hheld) data hkey]
  congr 2
  exact List.flatMap_congr fun entry hentry => replicate_count_eq hheld data key hentry

/-- The list under a key holds one value for each entry exactly if no entry selects the key
twice. -/
theorem find?_aggregate_eq_iff (hheld : ((start codes).run steps).prepared? number = some held)
    (data : JsonObject) {key : String} (hkey : key ∈ held.expectedKeys) :
    Bindings.find? key (held.aggregate data) = some (.array (held.entries.filterMap
        (((start codes).run steps).ownValue? number data key))) ↔
      ∀ entry ∈ held.entries, entry.expectedKeys.count key ≤ 1 := by
  -- An entry adds something to the list as soon as it selects the key at all
  have hcount : ∀ entry ∈ held.entries,
      (((start codes).run steps).ownValue? number data key entry).isSome ↔
        0 < entry.expectedKeys.count key := fun entry hentry =>
    (isSome_ownValue?_iff hheld data key hentry).trans List.count_pos_iff.symm
  have hlength := fun entry hentry => length_replicate_count _ _ (hcount entry hentry)
  rw [find?_aggregate_own hheld data hkey, Option.some.injEq, Json.array.injEq,
    List.filterMap_eq_flatMap_toList,
    flatMap_eq_flatMap_iff fun entry hentry => (hlength entry hentry).1]
  exact forall₂_congr fun entry hentry => (hlength entry hentry).2

end Held

/-- **The aggregate against the results of the entries**, for every prepared commit of every run,
whatever its templates select. Settlement is compared with what the entries get from the same data,
so nothing is assumed of the response. -/
theorem aggregateLaws_run (codes : AliasCodes) (steps : List SessionStep) (number : Nat)
    (held : Commit) (hheld : ((start codes).run steps).prepared? number = some held) :
    AggregateLaws ((start codes).run steps) number held := by
  -- The names do not depend on the data: a key that did not come back has the value null
  have hnames : ∀ data, Names.FirstSeen held.expectedKeys (Bindings.names (held.aggregate data)) :=
    fun data => Commit.names_aggregate held data ▸ Names.firstSeen_distinct _
  constructor
  case returned =>
    intro data
    exact ⟨_, settle_ok hheld data, hnames data, fun _ => find?_aggregate_own hheld data⟩
  case selects => exact fun data key _ => isSome_ownValue?_iff hheld data key
  case one_each =>
    intro data aggregate haggregate
    rw [settle_ok hheld data, Option.some.injEq, Except.ok.injEq] at haggregate
    subst haggregate
    constructor
    · intro heach entry hentry
      rw [List.nodup_iff_count_le_one]
      intro key
      by_cases hkey : key ∈ entry.expectedKeys
      · have hsome : key ∈ held.expectedKeys := List.mem_flatMap.2 ⟨entry, hentry, hkey⟩
        exact (find?_aggregate_eq_iff hheld data hsome).1 (heach.lists key hsome) entry hentry
      · rw [List.count_eq_zero_of_not_mem hkey]
        exact Nat.zero_le 1
    · intro hnodup
      refine ⟨hnames data, fun key hkey => ?_⟩
      apply (find?_aggregate_eq_iff hheld data hkey).2
      intro entry hentry
      exact List.nodup_iff_count_le_one.1 (hnodup entry hentry) key

theorem aggregateLaws_twoPosts :
    ∃ held, ((start ⟨1, [2]⟩).run twoPosts).prepared? 0 = some held ∧
      held.entries.map Entry.expectedKeys = [["post", "a", "post"], ["post"]] ∧
      AggregateLaws ((start ⟨1, [2]⟩).run twoPosts) 0 held := by
  obtain ⟨held, hheld, hparts⟩ := Option.map_eq_some_iff.1 prepared_twoPosts
  exact ⟨held, hheld, (Prod.mk.inj hparts).2, aggregateLaws_run _ _ 0 held hheld⟩

/-- An operation that selects a field twice, by itself in a batch. -/
def repeatedField : List SessionStep :=
  [.merge .empty "page" (.prepare .query "query {a a}") [], .commit "page"]

/-- The one entry gets the value once, and the list holds it twice. -/
theorem not_one_value_each :
    ∃ held entry, ((start ⟨1, []⟩).run repeatedField).prepared? 0 = some held ∧
      held.entries = [entry] ∧
      (((start ⟨1, []⟩).run repeatedField).settle 0 (.ok [("merge0001_a", .bool true)])).2 =
        some (.ok [("a", .array [.bool true, .bool true])]) ∧
      ((start ⟨1, []⟩).run repeatedField).answerTo 0 [("merge0001_a", .bool true)] entry =
        some (.ok [("a", .bool true)]) ∧
      ¬ ((start ⟨1, []⟩).run repeatedField).OneValueEach 0 held [("merge0001_a", .bool true)]
        [("a", .array [.bool true, .bool true])] := by
  have hprepared : Template.prepare .query "query {a a}" = ⟨.query, "query {a a}"⟩ := by
    decide +kernel
  have hcompiled : Library.empty.compile ⟨.query, "query {a a}"⟩ [] true =
      .ok ⟨.query, none, [], "query {a a}", [], [], []⟩ :=
    Library.empty.compile_of_no_spreads (by decide +kernel) (by decide +kernel)
  have hcomputed : (((start ⟨1, []⟩).run repeatedField).prepared? 0).map
      (fun held => held.entries.map Entry.fields) =
      some [[⟨"merge0001_a", "a"⟩, ⟨"merge0001_a", "a"⟩]] := by
    simp only [repeatedField, run_cons, run_nil, step, merge, Entry.weave, hprepared,
      hcompiled]
    decide +kernel
  obtain ⟨held, hheld, hentries⟩ := Option.map_eq_some_iff.1 hcomputed
  obtain ⟨entry, hsingle, hfields⟩ := List.map_eq_singleton_iff.1 hentries
  have hmem : entry ∈ held.entries := hsingle ▸ List.mem_singleton_self entry
  have hkeys : entry.expectedKeys = ["a", "a"] := by
    rw [Entry.expectedKeys, hfields]
    rfl
  -- The value goes into the list once for each field, and into the answer once
  have hsettled := settle_ok hheld [("merge0001_a", .bool true)]
  have haggregate : held.aggregate [("merge0001_a", .bool true)] =
      [("a", .array [.bool true, .bool true])] := by
    rw [Commit.aggregate, hsingle, List.flatMap_singleton, hfields]
    rfl
  rw [haggregate] at hsettled
  have hanswer := answerTo_ok hheld [("merge0001_a", .bool true)] hmem
  have hdata : Commit.dataFor [("merge0001_a", .bool true)] entry = [("a", .bool true)] := by
    rw [Commit.dataFor, hfields]
    rfl
  rw [hdata] at hanswer
  refine ⟨held, entry, hheld, hsingle, hsettled, hanswer, ?_⟩
  intro heach
  -- The entry has one value of its own
  have hlist := heach.lists "a" (List.mem_flatMap.2 ⟨entry, hmem, by simp [hkeys]⟩)
  have hown := ownValue?_eq hheld [("merge0001_a", .bool true)] "a" hmem
  rw [hkeys, if_pos List.mem_cons_self] at hown
  rw [hsingle, List.filterMap_cons_some hown] at hlist
  simp [Bindings.find?] at hlist

end Session

end QueryWeave
