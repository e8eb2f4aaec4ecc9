import QueryWeave.Proofs.Batch.Meaning
import QueryWeave.Proofs.Operation.Declared

/-!
# Committed Entries and Their Templates

A commit that succeeds holds entries that were merged in the run before it, each from a template and
variables against a library. Where these were merged against one library, under different aliases
that are free in it, the commit is a batch, and what is known of batches holds of it.

What the templates must be is what the walk along their selections needs: no response key may touch
a number. In a well-formed operation none does. But declarations are inferred from the keys of
variables as they are written, and a key of no documented form can smuggle other selections in.

- `keysApart_of_isChain`: keys of rows that fit.
- `Session.commit_inversion`: commits that succeed.
- `Session.batch_of_commit`: commits whose entries were merged against one library.
- `Session.twoTexts`: a run of two merges.
-/

namespace QueryWeave

/-! ## §1 Keys of well-formed operations -/

/-- In a row that fits, no response key touches a number. Every response key is a name, and a name
that fits behind a number does not touch it. -/
theorem keysApart_of_isChain {p : SelectionPoint} {row : List Lexeme} (h : row.IsChain Fits)
    (hbefore : ∀ b ∈ p.before, ∀ l ∈ row.head?, Fits b l) : keysApart p row = true := by
  induction row generalizing p with
  | nil => rfl
  | cons l rest ih =>
    rw [List.isChain_cons] at h
    have hrest : keysApart (p.advance l) rest = true := by
      apply ih h.2
      intro b hb next hnext
      have hl : b = l := (Option.some.inj hb).symm
      rw [hl]
      exact h.1 next hnext
    rw [keysApart, hrest, Bool.and_true, Bool.not_eq_true']
    by_contra htouches
    simp only [Bool.not_eq_false, Bool.and_eq_true, SelectionPoint.isKey, Lexeme.isName,
      Lexeme.touches, decide_eq_true_eq, List.isEmpty_iff] at htouches
    obtain ⟨⟨⟨hname, -⟩, hgap⟩, hnumber⟩ := htouches
    -- A number in front of the key would leave a gap
    cases hb : p.before with
    | none =>
      rw [hb] at hnumber
      cases hnumber
    | some b =>
      have hother : b.kind = .other := by simpa [hb] using hnumber
      exact (hbefore b hb l rfl).2 hother hname hgap

theorem Outline.Fitting.keysApart {o : Outline} (h : o.Fitting) :
    keysApart .start o.selection.inner = true :=
  keysApart_of_isChain h.inner (by simp [SelectionPoint.start])

/-- Whether variables have keys of documented forms, as far as the template leaves declarations to
be inferred from them. -/
def Template.Keyed (t : Template) (values : JsonObject) : Prop :=
  ∀ o, Outline.ofText? t.source = some o → o.Keyed values

/-- The selections of an entry that comes from a well-formed template. -/
theorem Woven.fitting {lib : Library} {template : Template} {values : JsonObject} {entry : Entry}
    (w : Woven lib template values entry) (hwell : template.WellFormed)
    (hkeyed : template.Keyed values) : w.outline.Fitting := by
  obtain ⟨c⟩ := Library.compilation_of_compile w.compiles
  exact c.fitting hwell (hkeyed c.outline c.outlines) w.outlines

/-! ## §2 Entries of a commit -/

namespace Session

/-- A commit that succeeds holds what waited under its key, and no entry of it lacks a variable. -/
theorem commit_inversion {s : Session} {key : String} {number : Nat} {held : Commit}
    (h : (s.commit key).2 = .ok (number, held)) :
    held = ⟨key, s.entriesUnder key⟩ ∧ held.missing? = none := by
  have hcommitted := s.committed key
  generalize s.commit key = outcome at hcommitted h
  -- A commit is refused without entries and for a missing variable, and else holds the entries
  cases hcommitted with
  | empty => cases h
  | failed => cases h
  | held _ hcomplete =>
    cases h
    exact ⟨rfl, hcomplete⟩

section Committed

variable {codes : AliasCodes} {steps : List SessionStep} {key : String} {number : Nat}
  {held : Commit}

theorem mem_mergedIn_of_commit
    (hcommit : (((start codes).run steps).commit key).2 = .ok (number, held)) :
    ∀ entry ∈ held.entries, entry ∈ (start codes).mergedIn steps := by
  have hsound := sound_run codes steps
  obtain ⟨rfl, -⟩ := commit_inversion hcommit
  exact fun entry hentry => (hsound.mem_entriesUnder hentry).1

theorem MergedFrom.mem {s : Session} {lib : Library} {template : Template} {values : JsonObject}
    {entry : Entry} (h : s.MergedFrom steps lib template values entry) :
    .merge lib entry.batchKey template values ∈ steps := by
  obtain ⟨before, after, rfl, -⟩ := h
  simp

/-- The entries of a commit whose operations were merged against one library. This is where runs end
and batches begin: what follows is about entries and their origins, and not about steps. -/
theorem batch_of_commit {lib : Library}
    (hcommit : (((start codes).run steps).commit key).2 = .ok (number, held))
    (hlib : lib.Registered)
    (horigin : ∀ entry ∈ held.entries, ∀ lib' template values,
      (start codes).MergedFrom steps lib' template values entry → lib' = lib)
    (hdistinct : (held.entries.map Entry.aliasName).Nodup)
    (hfree : ∀ entry ∈ held.entries, lib.Free entry.aliasName) : held.Batch lib := by
  -- Every committed entry was merged in this run, and all of them from the one library
  have hmerged : ∀ entry ∈ held.entries, ∃ template values,
      (start codes).MergedFrom steps lib template values entry := by
    intro entry hentry
    obtain ⟨lib', template, values, hfrom⟩ :=
      exists_mergedFrom (mem_mergedIn_of_commit hcommit entry hentry)
    obtain rfl := horigin entry hentry lib' template values hfrom
    exact ⟨template, values, hfrom⟩
  refine ⟨hlib, fun entry hentry => ?_, fun entry hentry => ?_, hdistinct, hfree⟩
  · obtain ⟨template, values, hfrom⟩ := hmerged entry hentry
    exact ⟨template, values, hfrom.woven.2⟩
  · obtain ⟨template, values, hfrom⟩ := hmerged entry hentry
    exact hfrom.woven.1

end Committed

/-! ## §3 A run of two merges -/

/-- A library of one fragment, which references a variable. -/
def postText : Library := ⟨[⟨"post.text", "on Post { text(size: $size) }"⟩]⟩

/-- An operation that spreads the fragment, and leaves the variable to be declared. -/
def textOfPost : Template := ⟨.query, "query { post { ...post.text } }"⟩

def sized (size : Int) : JsonObject := [("size", .number (.int size))]

/-- The operation twice in one batch, with different values. -/
def twoTexts : List SessionStep :=
  [.merge postText "page" textOfPost (sized 1), .merge postText "page" textOfPost (sized 2)]

private theorem wellFormed_textOfPost : textOfPost.WellFormed := by
  have hrow : (scanText textOfPost.source).lexemes =
      [⟨[], .name, "query".toList⟩, ⟨[' '], .punctuator '{', ['{']⟩,
        ⟨[' '], .name, "post".toList⟩, ⟨[' '], .punctuator '{', ['{']⟩,
        ⟨[' '], .ellipsis, "...".toList⟩, ⟨[], .name, "post".toList⟩,
        ⟨[], .punctuator '.', ['.']⟩, ⟨[], .name, "text".toList⟩,
        ⟨[' '], .punctuator '}', ['}']⟩, ⟨[' '], .punctuator '}', ['}']⟩] := by
    decide +kernel
  constructor
  · -- From the inside: the spread, the field around it, and the operation
    rw [hrow]
    have hspread : Derives .selection _ :=
      @Derives.spread ⟨[' '], .ellipsis, "...".toList⟩ ⟨[], .name, "post".toList⟩ _ _ rfl
        (by decide)
        (@Derives.segmentsCons ⟨[], .punctuator '.', ['.']⟩ ⟨[], .name, "text".toList⟩ _ rfl
          .segmentsNil) .directivesNil
    have hbody : Derives .selectionSet _ :=
      @Derives.selectionSet ⟨[' '], .punctuator '{', ['{']⟩
        ⟨[' '], .punctuator '}', ['}']⟩ _ rfl (.selectionsCons hspread .selectionsNil)
        (by simp) rfl
    have hfield : Derives .selection _ :=
      .bareField (@Derives.field ⟨[' '], .name, "post".toList⟩ _ _ _ rfl .noArguments .directivesNil
        (.subselection hbody))
    have hset : Derives .selectionSet _ :=
      @Derives.selectionSet ⟨[' '], .punctuator '{', ['{']⟩
        ⟨[' '], .punctuator '}', ['}']⟩ _ rfl (.selectionsCons hfield .selectionsNil)
        (by simp) rfl
    exact @Derives.anonymous ⟨[], .name, "query".toList⟩ _ _ _ (by decide) .noSignature
      .directivesNil hset
  · rw [hrow]
    simp [Apart]

/-- A commit that is known to succeed, and what is known of what it holds. -/
theorem exists_of_toOption {α : Type} {result : Except ClientError (Nat × Commit)}
    (view : Commit → α) {number : Nat} {seen : α}
    (h : result.toOption.map (fun committed => (committed.1, view committed.2)) =
      some (number, seen)) : ∃ held, result = .ok (number, held) ∧ view held = seen := by
  cases result with
  | error e => cases h
  | ok committed =>
    cases h
    exact ⟨committed.2, rfl, rfl⟩

private theorem compile_textOfPost {size : Int} (hsize : size = 1 ∨ size = 2) :
    postText.compile textOfPost (sized size) true = .ok {
      kind := .query
      name := none
      declarations := [⟨"size", "Int!", none⟩]
      operation := "query ($size: Int!) { post { ... post_text } }"
      fragmentNames := ["post_text"]
      fragments := ["\nfragment post_text on Post { text(size: $size) }"]
      warnings := [] } := by
  -- The three parts of a compilation: the declared text, what it resolves to, the definition
  have hdeclared : (Outline.ofText? textOfPost.source).map (fun o =>
      let declared := o.declare textOfPost.source (sized size) true
      (o.name, declared.text, declared.declarations, declared.warnings.isEmpty)) =
      some (none, "query ($size: Int!) { post { ...post.text } }", [⟨"size", "Int!", none⟩],
        true) := by
    rcases hsize with rfl | rfl <;> decide +kernel
  have hspread : pathsSpread "query ($size: Int!) { post { ...post.text } }" = ["post.text"] := by
    decide +kernel
  have hfind : postText.find? "post.text" =
      some ⟨"post.text", "on Post { text(size: $size) }"⟩ := by
    decide +kernel
  have hresolved : postText.resolve "query ($size: Int!) { post { ...post.text } }" =
      .ok ⟨"query ($size: Int!) { post { ... post_text } }", ["post_text"]⟩ := by
    rw [Library.resolve_of_leaf hspread hfind (by decide +kernel)]
    decide +kernel
  exact Library.compile_eq_ok hdeclared hresolved (by decide +kernel)

theorem exists_commit_twoTexts :
    ∃ held, (((start ⟨1, [2]⟩).run twoTexts).commit "page").2 = .ok (0, held) ∧
      held.entries.map Entry.aliasName = ["merge0001", "merge0002"] := by
  have hrun : (((start ⟨1, [2]⟩).run twoTexts).commit "page").2.toOption.map
      (fun committed => (committed.1, committed.2.entries.map Entry.aliasName)) =
        some (0, ["merge0001", "merge0002"]) := by
    simp only [twoTexts, run_cons, run_nil, step, merge, Entry.weave,
      @compile_textOfPost 1 (.inl rfl), @compile_textOfPost 2 (.inr rfl)]
    decide +kernel
  exact exists_of_toOption (fun held => held.entries.map Entry.aliasName) hrun

theorem mergedFrom_twoTexts {s : Session} {lib : Library} {template : Template}
    {values : JsonObject} {entry : Entry}
    (h : s.MergedFrom twoTexts lib template values entry) :
    lib = postText ∧ template.WellFormed ∧ ∀ pair ∈ values, DocumentedKey pair.1 := by
  have hkeys : ∀ size, ∀ pair ∈ sized size, DocumentedKey pair.1 := by
    intro size pair hpair
    rw [List.mem_singleton.1 hpair]
    show DocumentedKey "size"
    exact .bare ⟨'s', "ize".toList, rfl, by decide, by decide⟩
  have hstep := h.mem
  -- Both steps merge the same template over the same library, only the values differ
  simp only [twoTexts, List.mem_cons, List.not_mem_nil, or_false, SessionStep.merge.injEq] at hstep
  rcases hstep with ⟨rfl, -, rfl, rfl⟩ | ⟨rfl, -, rfl, rfl⟩
  · exact ⟨rfl, wellFormed_textOfPost, hkeys 1⟩
  · exact ⟨rfl, wellFormed_textOfPost, hkeys 2⟩

end Session

end QueryWeave
