import QueryWeave.Proofs.Batch.Origins
import QueryWeave.Proofs.Batch.Variables

/-!
# The Definitions of a Commit

Every entry brings definitions along for the fragments it was compiled against. A commit sends one
of each name, namely that of the first entry that brings one. So an entry is sent with its own
definitions exactly if no entry in front of it brings another one under the same name.

Copies go by names that only one entry uses. But a fragment without variables is shared under its
flat name, and its body is what the library held at the time of the merge. If it is registered again
between two merges, the later entry is sent with the body of the earlier one.

- `Commit.mem_fragments_iff`: which definitions are sent.
- `Session.definitionLaws_commit`: when every entry is sent with its own.
- `Session.not_sends_renewed`: a run in which one is not.
-/

namespace QueryWeave

/-! ## §1 One definition of each name

What a commit sends is gathered with `putNew`: the first definition of a name stays. So the
definitions sent are found by looking for the first entry that has the name, and their names are
distinct. -/

/-- Isolation defines no name twice. -/
theorem nodup_definitions (aliasName : String) (fragments : List Fragment) {known : EntryFragments}
    (h : (Bindings.names known.definitions).Nodup) :
    (Bindings.names
      (fragments.foldl (EntryFragments.add aliasName) known).definitions).Nodup := by
  induction fragments generalizing known with
  | nil => exact h
  | cons f rest ih =>
    apply ih
    rcases known.add_cases aliasName f with ⟨-, hadd⟩ | ⟨-, hadd⟩
    · rw [hadd]
      exact Bindings.nodup_names_put h
    · rw [hadd]
      exact Bindings.nodup_names_put h

theorem Woven.nodup_fragments {lib : Library} {template : Template} {values : JsonObject}
    {entry : Entry} (w : Woven lib template values entry) :
    (Bindings.names entry.fragments).Nodup := by
  rw [w.fragments_eq, Library.isolate_inversion w.isolates]
  exact nodup_definitions _ _ List.nodup_nil

namespace Commit

theorem nodup_fragments (held : Commit) : (Bindings.names held.fragments).Nodup := by
  rw [fragments_eq_foldl]
  exact Bindings.nodup_names_foldl_putNew _ List.nodup_nil

/-- Of the definitions under one name, that of the first entry is sent. Later ones are dropped
unseen, be they the same or not. -/
theorem mem_fragments_iff {held : Commit}
    (hnodup : ∀ entry ∈ held.entries, (Bindings.names entry.fragments).Nodup)
    {name text : String} :
    (name, text) ∈ held.fragments ↔
      ∃ before entry after, held.entries = before ++ entry :: after ∧
        (∀ earlier ∈ before, name ∉ Bindings.names earlier.fragments) ∧
        (name, text) ∈ entry.fragments := by
  -- A list of bindings without repeated names is known by its lookups
  have hfind := held.find?_fragments name
  constructor
  · intro hmem
    rw [Bindings.find?_of_mem held.nodup_fragments hmem, eq_comm,
      List.findSome?_eq_some_iff] at hfind
    obtain ⟨before, entry, after, hsplit, hentry, hbefore⟩ := hfind
    exact ⟨before, entry, after, hsplit,
      fun earlier hearlier => Bindings.find?_eq_none_iff.1 (hbefore earlier hearlier),
      Bindings.mem_of_find? hentry⟩
  · rintro ⟨before, entry, after, hsplit, hbefore, hmem⟩
    apply Bindings.mem_of_find?
    rw [hfind, List.findSome?_eq_some_iff]
    refine ⟨before, entry, after, hsplit, ?_, fun earlier hearlier => ?_⟩
    · have hentry : entry ∈ held.entries := by
        rw [hsplit]
        exact List.mem_append_right _ List.mem_cons_self
      exact Bindings.find?_of_mem (hnodup entry hentry) hmem
    · exact Bindings.find?_eq_none_iff.2 (hbefore earlier hearlier)

/-- Whether the definitions that an entry brought along are sent. -/
def SendsOwn (held : Commit) (entry : Entry) : Prop :=
  ∀ pair ∈ entry.fragments, pair ∈ held.fragments

/-- Whether two entries bring no different definitions along under one name. -/
def Agree (first second : Entry) : Prop :=
  ∀ name text other, (name, text) ∈ first.fragments → (name, other) ∈ second.fragments →
    text = other

/-- An entry brings no two definitions of one name along. -/
theorem agree_self {entry : Entry} (hnodup : (Bindings.names entry.fragments).Nodup) :
    Agree entry entry := by
  intro name text other htext hother
  have hfound := Bindings.find?_of_mem hnodup htext
  rw [Bindings.find?_of_mem hnodup hother] at hfound
  exact (Option.some.inj hfound).symm

/-- All entries are sent with their own definitions if and only if any two of them agree. -/
theorem sendsOwn_iff_agree {held : Commit}
    (hnodup : ∀ entry ∈ held.entries, (Bindings.names entry.fragments).Nodup) :
    (∀ entry ∈ held.entries, held.SendsOwn entry) ↔
      ∀ first ∈ held.entries, ∀ second ∈ held.entries, Agree first second := by
  constructor
  · intro hall first hfirst second hsecond name text other htext hother
    -- Both are sent, under a name that is defined once
    have hsent := Bindings.find?_of_mem held.nodup_fragments (hall first hfirst _ htext)
    rw [Bindings.find?_of_mem held.nodup_fragments (hall second hsecond _ hother)] at hsent
    exact (Option.some.inj hsent).symm
  · rintro hall entry hentry ⟨name, text⟩ hpair
    apply Bindings.mem_of_find?
    apply find?_fragments_eq hentry (Bindings.find?_of_mem (hnodup entry hentry) hpair)
    intro other hother found hfound
    exact hall other hother entry hentry name found text (Bindings.mem_of_find? hfound) hpair

/-- A definition that is sent stands in the document. -/
theorem document_of_mem {held : Commit} {name text : String} (h : (name, text) ∈ held.fragments) :
    ∃ front behind, held.document = front ++ "\n" ++ text ++ behind := by
  obtain ⟨before, after, hsplit⟩ := List.append_of_mem h
  refine ⟨held.opening ++ String.join (held.entries.map Entry.selection) ++ " \x7d" ++
    String.join (before.map fun f => "\n" ++ f.2), String.join (after.map fun f => "\n" ++ f.2), ?_⟩
  rw [document, hsplit, List.map_append, List.map_cons, String.join_append, String.join_cons]
  simp only [String.append_assoc]

end Commit

/-! ## §2 Libraries that entries were merged against -/

namespace Session

/-- Whether the entries of a commit have different aliases, and were merged against libraries that
came about by registrations and in which no flat name looks like a name of these entries. -/
structure Plain (s : Session) (steps : List SessionStep) (held : Commit) : Prop where
  distinct : (held.entries.map Entry.aliasName).Nodup
  registered : ∀ entry ∈ held.entries, ∀ lib template values,
    s.MergedFrom steps lib template values entry → lib.Registered
  free : ∀ entry ∈ held.entries, ∀ lib template values,
    s.MergedFrom steps lib template values entry →
    ∀ other ∈ held.entries, lib.Free other.aliasName

/-- What an entry brings along: under the flat name of a fragment the definition of the library, and
copies under names of its own. -/
theorem MergedFrom.brings {s : Session} {steps : List SessionStep} {lib : Library}
    {template : Template} {values : JsonObject} {entry : Entry}
    (h : s.MergedFrom steps lib template values entry) (hlib : lib.Registered)
    (hfree : lib.Free entry.aliasName) {name text : String}
    (hpair : (name, text) ∈ entry.fragments) :
    (∃ f, lib.find? name = some f ∧ f.flatName = name ∧ text = f.definition) ∨
      ∃ own, name = entryName entry.aliasName own ∧ flattenPath name = name := by
  obtain ⟨⟨code, hcode⟩, ⟨w⟩⟩ := h.woven
  have hisolated := w.isolated hlib hfree
  obtain ⟨c⟩ := Library.compilation_of_compile w.compiles
  have hfound := Bindings.find?_of_mem w.nodup_fragments hpair
  rw [w.fragments_eq] at hpair hfound
  -- A name among the definitions is that of a shared fragment, or that of a copy
  rcases hisolated.names name (List.mem_map_of_mem (f := Prod.fst) hpair) with
    ⟨hlisted, hshared⟩ | ⟨own, hown, rfl⟩
  · obtain ⟨f, hfind, hflat, -, -⟩ := c.order.fragment name hlisted
    have hdefinition := (hisolated.shared name hlisted hshared f hfind).1
    rw [hfound] at hdefinition
    exact .inl ⟨f, hfind, hflat, Option.some.inj hdefinition⟩
  · obtain ⟨-, -, -, hspread, -⟩ := c.order.fragment own (hisolated.copied_listed own hown)
    have hname := isName_entryName (hcode ▸ isName_aliasOfCode code) hspread.1.all
    refine .inr ⟨own, rfl, ?_⟩
    rw [flattenPath, flattenChars_of_all hname.all, String.ofList_toList]

/-- Helper: no library finds anything under the name of a copy. -/
private theorem not_find?_of_free {lib : Library} {aliasName own : String}
    (hfree : lib.Free aliasName)
    (hflat : flattenPath (entryName aliasName own) = entryName aliasName own) {f : Fragment} :
    lib.find? (entryName aliasName own) ≠ some f := by
  intro hfind
  have hname := lib.flatName_of_find? hfind
  -- The registry keeps fragments under flat names, and this one would begin with the entry's alias
  rw [hflat] at hname
  exact hfree f (lib.mem_of_find? hfind) own hname

namespace Plain

variable {s : Session} {steps : List SessionStep} {held : Commit} {first second : Entry}
  {lib lib' : Library} {template template' : Template} {values values' : JsonObject}

/-- What an entry brings along under a name that its library finds is the definition found. -/
theorem text_eq (h : s.Plain steps held) (hfirst : first ∈ held.entries)
    (hfrom : s.MergedFrom steps lib template values first) {name text : String}
    (hpair : (name, text) ∈ first.fragments) {f : Fragment} (hfind : lib.find? name = some f) :
    f.flatName = name ∧ text = f.definition := by
  have hfree := h.free first hfirst lib template values hfrom first hfirst
  rcases hfrom.brings (h.registered first hfirst lib template values hfrom) hfree hpair with
    ⟨g, hg, hname, htext⟩ | ⟨own, rfl, hflat⟩
  · rw [hfind] at hg
    cases hg
    exact ⟨hname, htext⟩
  · exact absurd hfind (not_find?_of_free hfree hflat)

/-- What two entries bring along under one name is a copy for neither of them, unless they are one
entry. -/
theorem shared (h : s.Plain steps held) (hfirst : first ∈ held.entries)
    (hsecond : second ∈ held.entries) (hne : first ≠ second)
    (hfrom : s.MergedFrom steps lib template values first)
    (hfrom' : s.MergedFrom steps lib' template' values' second) {name text other : String}
    (htext : (name, text) ∈ first.fragments) (hother : (name, other) ∈ second.fragments) :
    ∃ f, lib.find? name = some f := by
  have hfree := h.free first hfirst lib template values hfrom first hfirst
  rcases hfrom.brings (h.registered first hfirst lib template values hfrom) hfree htext with
    ⟨f, hf, -⟩ | ⟨own, rfl, hflat⟩
  · exact ⟨f, hf⟩
  · -- The other entry would have such a fragment, or the same alias
    have hfree' := h.free second hsecond lib' template' values' hfrom'
    rcases hfrom'.brings (h.registered second hsecond lib' template' values' hfrom')
      (hfree' second hsecond) hother with ⟨g, hg, -⟩ | ⟨own', heq, -⟩
    · exact absurd hg (not_find?_of_free (hfree' first hfirst) hflat)
    · obtain ⟨⟨code, hcode⟩, -⟩ := hfrom.woven
      obtain ⟨⟨code', hcode'⟩, -⟩ := hfrom'.woven
      rw [hcode, hcode'] at heq
      have halias : first.aliasName = second.aliasName := by
        rw [hcode, hcode', (entryName_inj heq).1]
      exact absurd (List.inj_on_of_nodup_map h.distinct hfirst hsecond halias) hne

/-- The libraries of entries that agree have the same body for every fragment that both bring
along. -/
theorem body_eq (h : s.Plain steps held) (hfirst : first ∈ held.entries)
    (hsecond : second ∈ held.entries) (hfrom : s.MergedFrom steps lib template values first)
    (hfrom' : s.MergedFrom steps lib' template' values' second) (hagree : Commit.Agree first second)
    {name : String} (hname : name ∈ Bindings.names first.fragments)
    (hname' : name ∈ Bindings.names second.fragments) {f g : Fragment}
    (hf : lib.find? name = some f) (hg : lib'.find? name = some g) : f.body = g.body := by
  obtain ⟨⟨bound, text⟩, htext, rfl⟩ := List.mem_map.1 hname
  obtain ⟨⟨bound', other⟩, hother, heq⟩ := List.mem_map.1 hname'
  obtain rfl : bound' = bound := heq
  obtain ⟨hflat, hdefinition⟩ := h.text_eq hfirst hfrom htext hf
  obtain ⟨hflat', hdefinition'⟩ := h.text_eq hsecond hfrom' hother hg
  -- Equal definitions under equal names have equal bodies
  have hsame := hagree _ _ _ htext hother
  rw [hdefinition, hdefinition', Fragment.definition, Fragment.definition, hflat, hflat'] at hsame
  exact Fragment.define_inj hsame

/-- Different entries agree if their libraries have the same bodies. -/
theorem agree (h : s.Plain steps held) (hfirst : first ∈ held.entries)
    (hsecond : second ∈ held.entries) (hne : first ≠ second)
    (hfrom : s.MergedFrom steps lib template values first)
    (hfrom' : s.MergedFrom steps lib' template' values' second)
    (hbodies : ∀ name ∈ Bindings.names first.fragments, name ∈ Bindings.names second.fragments →
      ∀ f g, lib.find? name = some f → lib'.find? name = some g → f.body = g.body) :
    Commit.Agree first second := by
  intro name text other htext hother
  -- The name is a copy's for neither entry, so both libraries find a fragment under it
  obtain ⟨f, hf⟩ := h.shared hfirst hsecond hne hfrom hfrom' htext hother
  obtain ⟨g, hg⟩ := h.shared hsecond hfirst hne.symm hfrom' hfrom hother htext
  obtain ⟨hflat, hdefinition⟩ := h.text_eq hfirst hfrom htext hf
  obtain ⟨hflat', hdefinition'⟩ := h.text_eq hsecond hfrom' hother hg
  have hsame := hbodies name (List.mem_map_of_mem (f := Prod.fst) htext)
    (List.mem_map_of_mem (f := Prod.fst) hother) f g hf hg
  rw [hdefinition, hdefinition', Fragment.definition, Fragment.definition, hflat, hflat', hsame]

/-- The copies of an entry are brought along by no other. -/
theorem not_mem_names (h : s.Plain steps held) (hfirst : first ∈ held.entries)
    (hsecond : second ∈ held.entries) (hne : first ≠ second)
    (hfrom : s.MergedFrom steps lib template values first)
    (hfrom' : s.MergedFrom steps lib' template' values' second) {own text : String}
    (hpair : (entryName first.aliasName own, text) ∈ first.fragments) :
    entryName first.aliasName own ∉ Bindings.names second.fragments := by
  intro hname
  obtain ⟨⟨bound, other⟩, hother, rfl⟩ := List.mem_map.1 hname
  obtain ⟨f, hf⟩ := h.shared hfirst hsecond hne hfrom hfrom' hpair hother
  have hflat := (h.text_eq hfirst hfrom hpair hf).1
  exact h.free first hfirst lib template values hfrom first hfirst f (lib.mem_of_find? hf) own hflat

end Plain

/-! ## §3 What is sent -/

/-- What a commit sends of the definitions that its entries brought along. Of several definitions
under one name the first is sent, so an entry may be sent with the body of another one. The laws say
when that happens: in terms of the definitions, and in terms of what the libraries held at the
merges. -/
structure DefinitionLaws (s : Session) (steps : List SessionStep) (held : Commit) : Prop where
  /-- The definitions of an entry are those that were isolated for it when it was merged. -/
  origins : ∀ entry ∈ held.entries, ∃ lib template values compiled known,
    s.MergedFrom steps lib template values entry ∧
      lib.compile template values true = .ok compiled ∧
      lib.isolate entry.aliasName compiled.fragmentNames = .ok known ∧
      entry.fragments = known.definitions
  /-- No name is defined twice. -/
  once : (Bindings.names held.fragments).Nodup
  /-- What is sent stands in the document. -/
  document : ∀ name text, (name, text) ∈ held.fragments →
    ∃ front behind, held.document = front ++ "\n" ++ text ++ behind
  /-- Of the definitions under one name, that of the first entry is sent. -/
  first : ∀ name text, (name, text) ∈ held.fragments ↔
    ∃ before entry after, held.entries = before ++ entry :: after ∧
      (∀ earlier ∈ before, name ∉ Bindings.names earlier.fragments) ∧
      (name, text) ∈ entry.fragments
  /-- All entries are sent with their own if and only if any two of them agree. -/
  own : (∀ entry ∈ held.entries, held.SendsOwn entry) ↔
    ∀ first ∈ held.entries, ∀ second ∈ held.entries, Commit.Agree first second
  /-- This is so if and only if any two libraries that entries were merged against have the same
  body for every fragment that both entries bring along. -/
  renewed : s.Plain steps held →
    ((∀ entry ∈ held.entries, held.SendsOwn entry) ↔
      ∀ first ∈ held.entries, ∀ second ∈ held.entries,
      ∀ lib template values lib' template' values',
        s.MergedFrom steps lib template values first →
        s.MergedFrom steps lib' template' values' second →
        ∀ name ∈ Bindings.names first.fragments, name ∈ Bindings.names second.fragments →
          ∀ f g, lib.find? name = some f → lib'.find? name = some g → f.body = g.body)
  /-- Copies are sent in any case. -/
  copies : s.Plain steps held → ∀ entry ∈ held.entries, ∀ own text,
    (entryName entry.aliasName own, text) ∈ entry.fragments →
    (entryName entry.aliasName own, text) ∈ held.fragments

/-- **A commit sends the first definition of each name**, and so every entry with its own exactly if
no fragment that is shared was registered anew between the merges. The libraries may be any at all,
except where the laws ask for plain ones (`Plain`). -/
theorem definitionLaws_commit (codes : AliasCodes) (steps : List SessionStep) (key : String)
    (number : Nat) (held : Commit)
    (hcommit : (((start codes).run steps).commit key).2 = .ok (number, held)) :
    DefinitionLaws (start codes) steps held := by
  have horigin : ∀ entry ∈ held.entries, ∃ lib template values,
      (start codes).MergedFrom steps lib template values entry := fun entry hentry =>
    exists_mergedFrom (mem_mergedIn_of_commit hcommit entry hentry)
  have hnodup : ∀ entry ∈ held.entries, (Bindings.names entry.fragments).Nodup := by
    intro entry hentry
    obtain ⟨lib, template, values, hfrom⟩ := horigin entry hentry
    obtain ⟨-, ⟨w⟩⟩ := hfrom.woven
    exact w.nodup_fragments
  constructor
  case origins =>
    intro entry hentry
    obtain ⟨lib, template, values, hfrom⟩ := horigin entry hentry
    obtain ⟨-, ⟨w⟩⟩ := hfrom.woven
    exact ⟨lib, template, values, w.compiled, w.fragments, hfrom, w.compiles, w.isolates,
      w.fragments_eq⟩
  case once => exact held.nodup_fragments
  case document => exact fun name text hmem => Commit.document_of_mem hmem
  case first => exact fun name text => Commit.mem_fragments_iff hnodup
  case own => exact Commit.sendsOwn_iff_agree hnodup
  case renewed =>
    intro hplain
    rw [Commit.sendsOwn_iff_agree hnodup]
    constructor
    · intro hagree first hfirst second hsecond lib template values lib' template' values' hfrom
        hfrom' name hname hname' f g hf hg
      exact hplain.body_eq hfirst hsecond hfrom hfrom' (hagree first hfirst second hsecond) hname
        hname' hf hg
    · intro hbodies first hfirst second hsecond
      -- Entries agree with themselves; two of them by the bodies behind their names
      by_cases hsame : first = second
      · subst hsame
        exact Commit.agree_self (hnodup first hfirst)
      · obtain ⟨lib, template, values, hfrom⟩ := horigin first hfirst
        obtain ⟨lib', template', values', hfrom'⟩ := horigin second hsecond
        apply hplain.agree hfirst hsecond hsame hfrom hfrom'
        exact hbodies first hfirst second hsecond _ _ _ _ _ _ hfrom hfrom'
  case copies =>
    intro hplain entry hentry own text hpair
    obtain ⟨before, after, hsplit⟩ := List.append_of_mem hentry
    have hdistinct := hplain.distinct
    rw [hsplit, List.map_append, List.map_cons, List.nodup_append] at hdistinct
    refine (Commit.mem_fragments_iff hnodup).2 ⟨before, entry, after, hsplit, ?_, hpair⟩
    -- No earlier entry has a copy of this name, aliases being distinct
    intro earlier hearlier
    have hmem : earlier ∈ held.entries := hsplit ▸ List.mem_append_left _ hearlier
    have hne : entry ≠ earlier := by
      rintro rfl
      exact hdistinct.2.2 _ (List.mem_map_of_mem hearlier) _ List.mem_cons_self rfl
    obtain ⟨lib, template, values, hfrom⟩ := horigin entry hentry
    obtain ⟨lib', template', values', hfrom'⟩ := horigin earlier hmem
    exact hplain.not_mem_names hentry hmem hne hfrom hfrom' hpair

/-! ## §4 A fragment registered again -/

def cardOf (body : String) : Library := ⟨[⟨"card", body⟩]⟩

/-- An operation that spreads the fragment. -/
def postCard : Template := ⟨.query, "query {post {...card}}"⟩

/-- The operation twice in one batch, the fragment being registered again in between. -/
def renewedCard : List SessionStep :=
  [.merge (cardOf "on Post {id}") "page" postCard [],
    .merge (cardOf "on Post {zip}") "page" postCard []]

private theorem compile_postCard {body : String}
    (hpaths : Fragment.spreadPaths ⟨"card", body⟩ = []) :
    (cardOf body).compile postCard [] true = .ok {
      kind := .query
      name := none
      declarations := []
      operation := "query {post {... card}}"
      fragmentNames := ["card"]
      fragments := [Fragment.define "card" body]
      warnings := [] } := by
  -- The one fragment is found, and spreads nothing itself
  have hfind : (cardOf body).find? "card" = some ⟨"card", body⟩ := by
    simp [cardOf, Library.find?, Fragment.flatName]
  have hflat : flattenPath "card" = "card" := by decide
  have hresolved : (cardOf body).resolve "query {post {...card}}" =
      .ok ⟨"query {post {... card}}", ["card"]⟩ := by
    have hspread : pathsSpread "query {post {...card}}" = ["card"] := by decide +kernel
    have htext : String.ofList (resolveSpreads (scanText "query {post {...card}}")) =
        "query {post {... card}}" := by
      decide +kernel
    rw [Library.resolve_of_leaf hspread hfind hpaths, htext, Fragment.flatName, hflat]
  have hdefinitions : (cardOf body).definitions ["card"] = .ok [Fragment.define "card" body] := by
    simp [cardOf, Library.definitions, Library.definition, Library.lookup, Library.find?,
      Fragment.flatName, Fragment.definition, hflat, Except.map, bind, Except.bind, pure,
      Except.pure]
  exact Library.compile_eq_ok (by decide +kernel) hresolved hdefinitions

/-- What the entries of the run bring along. -/
def renewedEntries : List (String × Bindings String) :=
  [("merge0001", [("card", "\nfragment card on Post {id}")]),
    ("merge0002", [("card", "\nfragment card on Post {zip}")])]

/-- What is sent for them. -/
def renewedDocument : String :=
  "query \x7b\nmerge0001_post:post {... card}\n" ++
    "merge0002_post:post {... card}\n \x7d\n\nfragment card on Post {id}"

theorem exists_commit_renewedCard :
    ∃ held, (((start ⟨1, [2]⟩).run renewedCard).commit "page").2 = .ok (0, held) ∧
      (held.entries.map fun entry => (entry.aliasName, entry.fragments), held.document) =
        (renewedEntries, renewedDocument) := by
  have hid : Fragment.spreadPaths ⟨"card", "on Post {id}"⟩ = [] := by decide +kernel
  have hzip : Fragment.spreadPaths ⟨"card", "on Post {zip}"⟩ = [] := by decide +kernel
  have hrun : (((start ⟨1, [2]⟩).run renewedCard).commit "page").2.toOption.map
      (fun committed => (committed.1,
        (committed.2.entries.map fun entry => (entry.aliasName, entry.fragments),
          committed.2.document))) =
      some (0, (renewedEntries, renewedDocument)) := by
    -- Two merges with compiled operations that are known, and the commit
    simp only [renewedCard, run_cons, run_nil, step, merge, Entry.weave, compile_postCard hid,
      compile_postCard hzip]
    -- Equality is decided for tuples of lists of tuples, an instance of some size
    set_option synthInstance.maxSize 256 in
    decide +kernel
  exact exists_of_toOption (fun held =>
    (held.entries.map fun entry => (entry.aliasName, entry.fragments), held.document)) hrun

private theorem register_card {lib : Library}
    (h : lib = .empty ∨ lib = cardOf "on Post {id}") :
    lib.register "card" "on Post {id}" = .ok (cardOf "on Post {id}") ∧
      lib.register "card" "on Post {zip}" = .ok (cardOf "on Post {zip}") := by
  rcases h with rfl | rfl
  · exact ⟨by decide +kernel, by decide +kernel⟩
  · exact ⟨by decide +kernel, by decide +kernel⟩

private theorem plain_renewedCard {held : Commit}
    (haliases : held.entries.map Entry.aliasName = ["merge0001", "merge0002"]) :
    (start ⟨1, [2]⟩).Plain renewedCard held := by
  -- The steps of the run name all libraries that entries are merged against
  have hlib : ∀ lib template values entry,
      (start ⟨1, [2]⟩).MergedFrom renewedCard lib template values entry →
        lib = cardOf "on Post {id}" ∨ lib = cardOf "on Post {zip}" := by
    intro lib template values entry hfrom
    have hstep := hfrom.mem
    simp only [renewedCard, List.mem_cons, SessionStep.merge.injEq, List.not_mem_nil,
      or_false] at hstep
    exact hstep.imp And.left And.left
  constructor
  case distinct =>
    rw [haliases]
    decide
  case registered =>
    intro entry _ lib template values hfrom
    rcases hlib lib template values entry hfrom with rfl | rfl
    · exact .register .empty (register_card (.inl rfl)).1
    · exact .register .empty (register_card (.inl rfl)).2
  case free =>
    intro entry _ lib template values hfrom other hother f hf own heq
    have hname : f.flatName = "card" := by
      rcases hlib lib template values entry hfrom with rfl | rfl <;>
        rw [List.mem_singleton.1 hf, Fragment.flatName] <;> decide
    have halias : other.aliasName ∈ ["merge0001", "merge0002"] :=
      haliases ▸ List.mem_map_of_mem hother
    have hchars := congrArg String.toList heq
    rw [hname] at hchars
    simp only [List.mem_cons, List.not_mem_nil, or_false] at halias
    rcases halias with halias | halias <;> simp [halias, entryName] at hchars

/-- What is sent in the run, where nothing but the two bodies is in the way of the entries. -/
theorem definitionLaws_renewedCard :
    ∃ held, (((start ⟨1, [2]⟩).run renewedCard).commit "page").2 = .ok (0, held) ∧
      (start ⟨1, [2]⟩).Plain renewedCard held ∧
      DefinitionLaws (start ⟨1, [2]⟩) renewedCard held := by
  obtain ⟨held, hcommit, hheld⟩ := exists_commit_renewedCard
  have haliases := congrArg (List.map Prod.fst) (Prod.mk.inj hheld).1
  rw [List.map_map] at haliases
  exact ⟨held, hcommit, plain_renewedCard haliases,
    definitionLaws_commit _ _ _ _ _ hcommit⟩

/-- A fragment is registered again between two merges. The second entry brings the new definition
along, but only the old one is sent. -/
theorem not_sends_renewed :
    ∃ first second held entry,
      Library.empty.register "card" "on Post {id}" = .ok first ∧
      first.register "card" "on Post {zip}" = .ok second ∧
      (((start ⟨1, [2]⟩).run [.merge first "page" postCard [],
        .merge second "page" postCard []]).commit "page").2 = .ok (0, held) ∧
      (held.entries.map Entry.aliasName).Nodup ∧ entry ∈ held.entries ∧
      entry.fragments = [("card", "\nfragment card on Post {zip}")] ∧
      ¬ held.SendsOwn entry ∧
      ¬ ∃ front behind,
        held.document = front ++ "\nfragment card on Post {zip}" ++ behind := by
  obtain ⟨held, hcommit, hheld⟩ := exists_commit_renewedCard
  obtain ⟨hentries, hdocument⟩ := Prod.mk.inj hheld
  have haliases := congrArg (List.map Prod.fst) hentries
  rw [List.map_map] at haliases
  have hsecond : ("merge0002", [("card", "\nfragment card on Post {zip}")]) ∈
      held.entries.map fun entry => (entry.aliasName, entry.fragments) := by
    rw [hentries]
    exact List.mem_cons_of_mem _ (List.mem_singleton_self _)
  obtain ⟨entry, hentry, hpair⟩ := List.mem_map.1 hsecond
  have hfragments := (Prod.mk.inj hpair).2
  have hunsent : ¬ ∃ front behind,
      held.document = front ++ "\nfragment card on Post {zip}" ++ behind := by
    rintro ⟨front, behind, hsplit⟩
    -- No letter of the document is a z
    have hletter : 'z' ∈ held.document.toList := by
      rw [hsplit]
      simp
    rw [hdocument] at hletter
    revert hletter
    decide
  refine ⟨cardOf "on Post {id}", cardOf "on Post {zip}", held, entry,
    (register_card (.inl rfl)).1, (register_card (.inr rfl)).2, hcommit, ?_, hentry, hfragments, ?_,
    hunsent⟩
  · exact (plain_renewedCard haliases).distinct
  · intro hsends
    obtain ⟨front, behind, hsplit⟩ := Commit.document_of_mem
      (hsends ("card", "\nfragment card on Post {zip}") (by simp [hfragments]))
    exact hunsent ⟨front ++ "\n", behind, hsplit⟩

end Session

end QueryWeave
