import QueryWeave.Batch.Session

/-!
# Runs of a Session

A session changes by single steps: an operation is merged, a batch is committed, a prepared
commit is settled, rejected or dropped, a result is asked for. A run is any number of steps, over
any keys and in any order. Beside it stands what the steps have merged: the entries of all
operations that merged, and those that were merged under one key since its last commit.

- `Session.MergedFrom`: entries with the operations they were merged from.
- `Session.committed`: the three ways in which a commit can end.
- `Session.moves`: all that a step can do.
-/

namespace QueryWeave

/-! ## §1 Steps -/

/-- What can be done to a session. Settling, rejecting and dropping name a prepared commit by its
number, and polling names an operation by its ticket; steps that name none that exists change
nothing. -/
inductive SessionStep where
  | merge (lib : Library) (batchKey : String) (template : Template) (values : JsonObject)
  | commit (batchKey : String)
  | settle (number : Nat) (outcome : Outcome)
  | reject (number : Nat) (e : ClientError)
  | dropCommit (number : Nat)
  | poll (ticket : Nat)

/-- Whether a step commits the batch under a key. -/
def SessionStep.commits (batchKey : String) : SessionStep → Bool
  | .commit key => key = batchKey
  | _ => false

namespace Session

/-- The session behind a step. -/
def step (s : Session) : SessionStep → Session
  | .merge lib batchKey template values => (s.merge lib batchKey template values).1
  | .commit batchKey => (s.commit batchKey).1
  | .settle number outcome => (s.settle number outcome).1
  | .reject number e => (s.reject number e).1
  | .dropCommit number => (s.dropCommit number).1
  | .poll ticket => (s.poll ticket).1

/-- The session behind a run of steps. -/
def run (s : Session) (steps : List SessionStep) : Session :=
  steps.foldl step s

@[simp] theorem run_nil (s : Session) : s.run [] = s := rfl

@[simp] theorem run_cons (s : Session) (next : SessionStep) (rest : List SessionStep) :
    s.run (next :: rest) = (s.step next).run rest := rfl

/-! ## §2 What is merged -/

/-- What an operation would be merged as, if it merges. -/
def weaving (s : Session) (lib : Library) (batchKey : String) (template : Template)
    (values : JsonObject) : Except ClientError Entry :=
  Entry.weave lib s.issued (aliasOfCode s.codes.draw.1) batchKey template values

/-- The entry that a step merges: none, unless it is a merge that succeeds. -/
def mergedBy (s : Session) : SessionStep → Option Entry
  | .merge lib batchKey template values => (s.weaving lib batchKey template values).toOption
  | _ => none

/-- The entries that a run merges, in order. -/
def mergedIn (s : Session) : List SessionStep → List Entry
  | [] => []
  | next :: rest => (s.mergedBy next).toList ++ (s.step next).mergedIn rest

/-- The entries merged under a key since its last commit, `earlier` being those from before the run.
A commit of the key clears them whether or not it succeeds. -/
def mergedSince (batchKey : String) (earlier : List Entry) (s : Session) :
    List SessionStep → List Entry
  | [] => earlier
  | next :: rest =>
    if next.commits batchKey then mergedSince batchKey [] (s.step next) rest
    else
      let new := (s.mergedBy next).toList.filter fun entry => entry.batchKey = batchKey
      mergedSince batchKey (earlier ++ new) (s.step next) rest

/-- Whether a run merges an entry from a template and variables, against a library: at some step of
it, the operation is merged under the key of the entry, and weaves into this entry. -/
def MergedFrom (s : Session) (steps : List SessionStep) (lib : Library) (template : Template)
    (values : JsonObject) (entry : Entry) : Prop :=
  ∃ before after, steps = before ++ .merge lib entry.batchKey template values :: after ∧
    (s.run before).weaving lib entry.batchKey template values = .ok entry

/-! ## §3 What a merge does -/

/-- A merge that fails uses up a code, and changes nothing else. -/
theorem merge_of_error {s : Session} {lib : Library} {batchKey : String} {template : Template}
    {values : JsonObject} {e : ClientError}
    (h : s.weaving lib batchKey template values = .error e) :
    s.merge lib batchKey template values = ({ s with codes := s.codes.draw.2 }, .error e) := by
  unfold weaving at h
  simp only [merge, h]

/-- A merge that succeeds puts its entry behind those waiting under the key. -/
theorem merge_of_ok {s : Session} {lib : Library} {batchKey : String} {template : Template}
    {values : JsonObject} {entry : Entry} (h : s.weaving lib batchKey template values = .ok entry) :
    s.merge lib batchKey template values =
      ({ s with
          codes := s.codes.draw.2
          waiting := s.waiting.put batchKey (s.entriesUnder batchKey ++ [entry])
          issued := s.issued + 1 }, .ok s.issued) := by
  unfold weaving at h
  simp only [merge, h]

/-! ## §4 What a commit does -/

/-- What waits under a key, as it would be committed. -/
def batch (s : Session) (key : String) : Commit :=
  ⟨key, s.entriesUnder key⟩

/-- A session with nothing left under a key. -/
def drained (s : Session) (key : String) : Session :=
  { s with waiting := s.waiting.drop key }

/-- How a commit can end: with the session behind it, and with what is returned. In all three cases
the key is drained, so a key that failed can be filled again. -/
inductive Committed (s : Session) (key : String) :
    Session × Except ClientError (Nat × Commit) → Prop
  /-- Nothing waits under the key. -/
  | empty (hnone : s.entriesUnder key = []) :
      Committed s key (s.drained key, .error (.emptyCommit key))
  /-- An entry lacks a variable, and all of them fail. -/
  | failed {e : ClientError} (hsome : s.entriesUnder key ≠ [])
      (hmissing : (s.batch key).missing? = some e) :
      Committed s key ((s.drained key).resolve ((s.batch key).failures e), .error e)
  /-- The entries are held under the next number. -/
  | held (hsome : s.entriesUnder key ≠ []) (hcomplete : (s.batch key).missing? = none) :
      Committed s key ({ s.drained key with commits := s.commits ++ [some (s.batch key)] },
        .ok (s.commits.length, s.batch key))

theorem committed (s : Session) (key : String) : s.Committed key (s.commit key) := by
  by_cases hempty : s.entriesUnder key = []
  · have hdrain : s.drain key = (s.drained key, .error (.emptyCommit key)) := by
      simp [drain, drained, hempty]
    rw [commit, hdrain]
    exact .empty hempty
  · -- The batch is drained now, whether or not one of its entries lacks a variable
    have hsome : (s.entriesUnder key).isEmpty = false := by simpa using hempty
    cases hmissing : (s.batch key).missing? with
    | some e =>
      have hdrain : s.drain key =
          ((s.drained key).resolve ((s.batch key).failures e), .error e) := by
        unfold batch at hmissing ⊢
        simp only [drain, drained, hsome, hmissing, Bool.false_eq_true, if_false]
      rw [commit, hdrain]
      exact .failed hempty hmissing
    | none =>
      have hdrain : s.drain key = (s.drained key, .ok (s.batch key)) := by
        unfold batch at hmissing ⊢
        simp only [drain, drained, hsome, hmissing, Bool.false_eq_true, if_false]
      rw [commit, hdrain]
      exact .held hempty hmissing

/-! ## §5 What a step does

Six kinds of steps come to four kinds of changes. The lemma of this section is the only one that
looks at all of them; invariants are proved over `Moves`. -/

/-- Every entry of a commit that fails gets a result. -/
theorem tickets_failures (c : Commit) (e : ClientError) :
    (c.failures e).map Prod.fst = c.tickets := by
  simp [Commit.failures, Commit.tickets, Function.comp_def]

/-- So does every entry of a commit that is answered. -/
theorem tickets_answers (c : Commit) (data : JsonObject) :
    (c.answers data).map Prod.fst = c.tickets := by
  simp [Commit.answers, Commit.tickets, Function.comp_def]

/-- All that a step can do to a session. Whatever is proved of all steps is proved over these four
cases and never over the steps themselves. -/
inductive Moves (s : Session) : SessionStep → Session → Prop
  /-- Only the codes or what was delivered may change. -/
  | idle {next : SessionStep} {s' : Session} (hmerged : s.mergedBy next = none)
      (hkeys : ∀ key, next.commits key = false) (hwaiting : s'.waiting = s.waiting)
      (hissued : s'.issued = s.issued) (hcommits : s'.commits = s.commits)
      (hresults : s'.results = s.results) : Moves s next s'
  /-- An entry is merged. -/
  | merged {lib : Library} {key : String} {template : Template} {values : JsonObject}
      {entry : Entry} (hweave : s.weaving lib key template values = .ok entry) :
      Moves s (.merge lib key template values)
        { s with
          codes := s.codes.draw.2
          waiting := s.waiting.put key (s.entriesUnder key ++ [entry])
          issued := s.issued + 1 }
  /-- A batch is committed. -/
  | committed {key : String} {outcome : Session × Except ClientError (Nat × Commit)}
      (h : s.Committed key outcome) : Moves s (.commit key) outcome.1
  /-- A prepared commit is consumed, and every one of its entries gets a result. -/
  | consumed {next : SessionStep} {number : Nat} {held : Commit}
      {results : List (Nat × OperationResult)} (hmerged : s.mergedBy next = none)
      (hkeys : ∀ key, next.commits key = false) (hheld : s.prepared? number = some held)
      (htickets : results.map Prod.fst = held.tickets) :
      Moves s next ((s.consume number).resolve results)

theorem moves (s : Session) (next : SessionStep) : s.Moves next (s.step next) := by
  cases next with
  | merge lib key template values =>
    cases hweave : s.weaving lib key template values with
    | error e =>
      have hmerged : s.mergedBy (.merge lib key template values) = none := by
        simp [mergedBy, hweave, Except.toOption]
      rw [step, merge_of_error hweave]
      exact .idle hmerged (fun _ => rfl) rfl rfl rfl rfl
    | ok entry =>
      rw [step, merge_of_ok hweave]
      exact .merged hweave
  | commit key => exact .committed (s.committed key)
  | settle number outcome =>
    -- Without such a commit nothing happens
    simp only [step, settle]
    split
    · exact .idle rfl (fun _ => rfl) rfl rfl rfl rfl
    · rename_i held hheld
      cases outcome with
      | ok data => exact .consumed rfl (fun _ => rfl) hheld (tickets_answers held data)
      | error e => exact .consumed rfl (fun _ => rfl) hheld (tickets_failures held _)
  | reject number e =>
    simp only [step, reject]
    split
    · exact .idle rfl (fun _ => rfl) rfl rfl rfl rfl
    · rename_i held hheld
      exact .consumed rfl (fun _ => rfl) hheld (tickets_failures held e)
  | dropCommit number =>
    simp only [step, dropCommit]
    split
    · exact .idle rfl (fun _ => rfl) rfl rfl rfl rfl
    · rename_i held hheld
      exact .consumed rfl (fun _ => rfl) hheld (tickets_failures held _)
  | poll ticket =>
    simp only [step, poll]
    split
    · exact .idle rfl (fun _ => rfl) rfl rfl rfl rfl
    · split
      · exact .idle rfl (fun _ => rfl) rfl rfl rfl rfl
      · exact .idle rfl (fun _ => rfl) rfl rfl rfl rfl

end Session

end QueryWeave
