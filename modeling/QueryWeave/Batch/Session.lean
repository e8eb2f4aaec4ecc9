import QueryWeave.Batch.Alias
import QueryWeave.Batch.Commit

/-!
# Batch Sessions

A session hands out a ticket for every operation merged. An operation waits under its batch key
until that key is committed; it is then held by the commit until the commit is settled, rejected
or dropped; and from then on its ticket has a result, which is delivered once.
-/

namespace QueryWeave

/-! ## §1 Sessions -/

/-- The state of all batches.

Tickets stand for what callers wait on: a ticket is a number, and what a caller would receive is
found under it in `results`, to be delivered once. -/
structure Session where
  codes : AliasCodes
  /-- The entries waiting under each batch key, in merge order. -/
  waiting : Bindings (List Entry)
  /-- The number of tickets handed out. -/
  issued : Nat
  /-- The prepared commits by number; one that is consumed is gone. -/
  commits : List (Option Commit)
  /-- The results by ticket. -/
  results : List (Nat × OperationResult)
  /-- The tickets whose result was delivered. -/
  delivered : List Nat
  deriving Repr

namespace Session

def start (codes : AliasCodes) : Session :=
  ⟨codes, [], 0, [], [], []⟩

def entriesUnder (s : Session) (batchKey : String) : List Entry :=
  (s.waiting.find? batchKey).getD []

def waitingCount (s : Session) (batchKey : String) : Nat :=
  (s.entriesUnder batchKey).length

def resolve (s : Session) (results : List (Nat × OperationResult)) : Session :=
  { s with results := s.results ++ results }

/-! ## §2 Merging and draining -/

/-- Merge an operation into the batch under a key, and hand out its ticket. An operation that does
not merge uses up a code all the same, and leaves everything else as it was. -/
def merge (s : Session) (lib : Library) (batchKey : String) (template : Template)
    (values : JsonObject) : Session × Except ClientError Nat :=
  -- The code is drawn before it is known whether the operation merges
  let (code, codes) := s.codes.draw
  match Entry.weave lib s.issued (aliasOfCode code) batchKey template values with
  | .error e => ({ s with codes }, .error e)
  | .ok entry =>
    ({ s with
        codes
        waiting := s.waiting.put batchKey (s.entriesUnder batchKey ++ [entry])
        issued := s.issued + 1 },
      .ok s.issued)

/-- Drain the batch under a key. If an entry lacks a variable, all of them fail, since the one
document cannot be sent without it. -/
def drain (s : Session) (batchKey : String) : Session × Except ClientError Commit :=
  let commit : Commit := ⟨batchKey, s.entriesUnder batchKey⟩
  let drained := { s with waiting := s.waiting.drop batchKey }
  -- The key is drained in any case, so a batch that fails can be merged anew
  if commit.entries.isEmpty then (drained, .error (.emptyCommit batchKey))
  else
    match commit.missing? with
    | some e => (drained.resolve (commit.failures e), .error e)
    | none => (drained, .ok commit)

/-- Let every entry of a drained batch fail. -/
def fail (s : Session) (commit : Commit) (e : ClientError) : Session :=
  s.resolve (commit.failures e)

/-- Give every entry of a drained batch its part of the outcome. The answer is the data of all
entries together. -/
def distribute (s : Session) (commit : Commit) : Outcome → Session × OperationResult
  | .ok data => (s.resolve (commit.answers data), .ok (commit.aggregate data))
  | .error e => (s.fail commit (.request e), .error (.request e))

/-! ## §3 Prepared commits -/

/-- Drain the batch under a key and keep the commit under the next number. -/
def commit (s : Session) (batchKey : String) : Session × Except ClientError (Nat × Commit) :=
  match s.drain batchKey with
  | (drained, .error e) => (drained, .error e)
  | (drained, .ok prepared) =>
    ({ drained with commits := drained.commits ++ [some prepared] },
      .ok (drained.commits.length, prepared))

/-- The prepared commit of a number, unless it is consumed. -/
def prepared? (s : Session) (number : Nat) : Option Commit :=
  s.commits[number]?.join

def consume (s : Session) (number : Nat) : Session :=
  { s with commits := s.commits.set number none }

def settle (s : Session) (number : Nat) (outcome : Outcome) : Session × Option OperationResult :=
  match s.prepared? number with
  | none => (s, none)
  | some prepared =>
    let (settled, answer) := (s.consume number).distribute prepared outcome
    (settled, some answer)

def reject (s : Session) (number : Nat) (e : ClientError) : Session × Option ClientError :=
  match s.prepared? number with
  | none => (s, none)
  | some prepared => ((s.consume number).fail prepared e, some e)

/-- Drop a prepared commit, and say whether it was still there. -/
def dropCommit (s : Session) (number : Nat) : Session × Bool :=
  match s.prepared? number with
  | none => (s, false)
  | some prepared => ((s.consume number).fail prepared .pendingResultDropped, true)

/-- Drop all entries that wait. -/
def reset (s : Session) : Session :=
  let entries := s.waiting.flatMap Prod.snd
  { s.resolve (entries.map fun entry => (entry.ticket, .error .pendingResultDropped)) with
    waiting := [] }

/-! ## §4 Results -/

/-- What a caller finds at a ticket. -/
inductive Delivery where
  | waiting
  | result (result : OperationResult)
  /-- The result was delivered before, or there is no such ticket. -/
  | taken
  deriving Repr

/-- The result of a ticket, once it has one. -/
def result? (s : Session) (ticket : Nat) : Option OperationResult :=
  (s.results.find? fun entry => entry.1 = ticket).map Prod.snd

/-- Ask for the result of a ticket. A result is given out once; after that the ticket is as good as
unknown. -/
def poll (s : Session) (ticket : Nat) : Session × Delivery :=
  -- A ticket that was never handed out looks like one whose result is gone
  if s.issued ≤ ticket || ticket ∈ s.delivered then (s, .taken)
  else
    match s.result? ticket with
    | none => (s, .waiting)
    | some result => ({ s with delivered := ticket :: s.delivered }, .result result)

end Session

end QueryWeave
