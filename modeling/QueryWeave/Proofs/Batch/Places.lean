import Mathlib.Data.List.Nodup
import QueryWeave.Proofs.Batch.Tickets

/-!
# No Result is Lost

What the invariant on tickets means for callers. Behind every run, each entry that was merged
waits under its own key, or is held by exactly one prepared commit of that key, or has a result,
and never two of these. A result never changes. A commit takes what was merged under its key since
the last commit of that key; it fails as empty exactly if that is nothing.
-/

namespace QueryWeave

/-- What makes a commit fail is a variable that is missing. -/
theorem Commit.eq_missingVariable {c : Commit} {e : ClientError} (h : c.missing? = some e) :
    ∃ aliasName variableName, e = .missingVariable aliasName variableName := by
  obtain ⟨entry, -, hentry⟩ := List.exists_of_findSome?_eq_some h
  obtain ⟨variableName, -, rfl⟩ := Option.map_eq_some_iff.1 hentry
  exact ⟨entry.aliasName, variableName, rfl⟩

namespace Session

/-! ## §1 Results -/

theorem result?_eq_none_iff {s : Session} {ticket : Nat} :
    s.result? ticket = none ↔ ticket ∉ s.answeredTickets := by
  simp only [result?, answeredTickets, Option.map_eq_none_iff, List.find?_eq_none, List.mem_map,
    decide_eq_true_eq, not_exists, not_and]

/-- A ticket without a result gets the one it is given, if every ticket is given one only. -/
theorem result?_resolve_of_none {s : Session} {ticket : Nat} {result : OperationResult}
    {results : List (Nat × OperationResult)} (hnone : s.result? ticket = none)
    (hdistinct : (results.map Prod.fst).Nodup) (hmem : (ticket, result) ∈ results) :
    (s.resolve results).result? ticket = some result := by
  -- Nothing is found among the old results, and one pair among the new
  have hold : s.results.find? (fun entry => entry.1 = ticket) = none := by
    simpa [result?] using hnone
  have hfirst : results.find? (fun entry => entry.1 = ticket) = some (ticket, result) := by
    induction results with
    | nil => simp at hmem
    | cons first rest ih =>
      rw [List.map_cons, List.nodup_cons] at hdistinct
      rcases List.mem_cons.1 hmem with heq | hrest
      · simp [← heq]
      · have hne : first.1 ≠ ticket := by
          intro hticket
          exact hdistinct.1 (hticket ▸ List.mem_map_of_mem (f := Prod.fst) hrest)
        rw [List.find?_cons_of_neg (by simpa using hne)]
        exact ih hdistinct.2 hrest
  simp only [result?, resolve, List.find?_append, hold, hfirst, Option.none_or, Option.map_some]

namespace Sound

variable {merged : List Entry} {s : Session}

theorem nodup_tickets (h : Sound merged s) :
    (s.waitingTickets ++ s.heldTickets ++ s.answeredTickets).Nodup :=
  h.everyTicket.nodup_iff.2 List.nodup_range

end Sound

/-! ## §3 What waits under a key

What waits under a key can be told from the steps alone: every merge that succeeds adds an entry to
its key, and every commit of the key takes all of them away. -/

/-- What a commit of a key leaves: the batch is gone, whether or not the commit succeeds. -/
theorem Committed.waiting {s : Session} {key : String}
    {outcome : Session × Except ClientError (Nat × Commit)} (h : s.Committed key outcome) :
    outcome.1.waiting = s.waiting.drop key := by
  cases h with
  | empty => rfl
  | failed => rfl
  | held => rfl

/-- What a step leaves under a key: nothing behind a commit of the key, and otherwise what was
there, with the entry that the step merges under that key behind it. -/
theorem entriesUnder_step (s : Session) (next : SessionStep) (key : String) :
    (s.step next).entriesUnder key =
      if next.commits key then []
      else s.entriesUnder key ++
        (s.mergedBy next).toList.filter fun entry => entry.batchKey = key := by
  have hmoves := s.moves next
  generalize s.step next = s' at hmoves ⊢
  cases hmoves with
  | idle hmerged hkeys hwaiting => simp [entriesUnder, hwaiting, hkeys, hmerged]
  | @merged lib own template values entry hweave =>
    -- The entry is put under the key it was merged with, and no other key is touched
    obtain ⟨⟨-, -, hkey⟩, -⟩ := Entry.woven_of_weave hweave
    simp only [mergedBy, hweave, SessionStep.commits, Except.toOption, Option.toList_some,
      Bool.false_eq_true, if_false]
    by_cases hsame : own = key
    · subst hsame
      rw [entriesUnder, Bindings.find?_put_self]
      simp [hkey]
    · rw [entriesUnder, Bindings.find?_put_of_ne (Ne.symm hsame)]
      simp [hkey, hsame, entriesUnder]
  | @committed own outcome hcommitted =>
    have hwaiting := hcommitted.waiting
    by_cases hsame : own = key
    · subst hsame
      simp [SessionStep.commits, entriesUnder, hwaiting]
    · simp [SessionStep.commits, hsame, mergedBy, entriesUnder, hwaiting,
        Bindings.find?_drop_of_ne (Ne.symm hsame)]
  | consumed hmerged hkeys =>
    simp only [hkeys, hmerged, Bool.false_eq_true, if_false, Option.toList_none, List.filter_nil,
      List.append_nil]
    rfl

/-- What waits under a key is what was merged under it since its last commit, in that order. -/
theorem entriesUnder_run (s : Session) (steps : List SessionStep) (key : String) :
    (s.run steps).entriesUnder key = s.mergedSince key (s.entriesUnder key) steps := by
  induction steps generalizing s with
  | nil => rfl
  | cons next rest ih =>
    rw [run_cons, ih, entriesUnder_step, mergedSince]
    split <;> rfl

/-! ## §4 Single steps -/

/-- What becomes of a prepared commit: every entry gets its result, and the commit is gone. This
covers the three ways to consume one. A settled commit gives each entry its part of the data, or all
of them the error of the request; a rejected or dropped one gives all of them one error. -/
structure ConsumeLaws (s : Session) (number : Nat) (held : Commit) : Prop where
  settled : ∀ outcome, (s.settle number outcome).1.prepared? number = none ∧
    ∀ entry ∈ held.entries, (s.settle number outcome).1.result? entry.ticket =
      match outcome with
      | .ok data => some (.ok (Commit.dataFor data entry))
      | .error e => some (.error (.request e))
  rejected : ∀ e, (s.reject number e).1.prepared? number = none ∧
    ∀ entry ∈ held.entries, (s.reject number e).1.result? entry.ticket = some (.error e)
  dropped : (s.dropCommit number).1.prepared? number = none ∧
    ∀ entry ∈ held.entries,
      (s.dropCommit number).1.result? entry.ticket = some (.error .pendingResultDropped)

theorem prepared?_consume (s : Session) (number : Nat) :
    (s.consume number).prepared? number = none := by
  simp only [prepared?, consume, List.getElem?_set_self']
  cases s.commits[number]? <;> rfl

namespace Sound

variable {merged : List Entry} {s : Session}

/-- Every ticket in a prepared commit is one of a kind and has no result yet. -/
theorem held_tickets (h : Sound merged s) {number : Nat} {held : Commit}
    (hheld : s.prepared? number = some held) :
    held.tickets.Nodup ∧ ∀ ticket ∈ held.tickets, s.result? ticket = none := by
  have hdistinct := h.nodup_tickets
  simp only [List.nodup_append, List.mem_append] at hdistinct
  -- The tickets of the commit are among those held, which occur once and have no result
  have hmem : ∀ ticket ∈ held.tickets, ticket ∈ s.heldTickets := by
    intro ticket hticket
    exact List.mem_flatMap.2 ⟨some held, mem_commits_of_prepared? hheld, hticket⟩
  constructor
  · have hsplit := (heldTickets_consume hheld).nodup_iff.1 hdistinct.1.2.1
    exact (List.nodup_append.1 hsplit).1
  · intro ticket hticket
    apply result?_eq_none_iff.2
    intro hno
    exact hdistinct.2.2 ticket (.inr (hmem ticket hticket)) ticket hno rfl

/-- A consumed commit gives its entries the results it is consumed with. -/
theorem result?_consume (h : Sound merged s) {number : Nat} {held : Commit}
    (hheld : s.prepared? number = some held) {results : List (Nat × OperationResult)}
    (htickets : results.map Prod.fst = held.tickets) {ticket : Nat} {result : OperationResult}
    (hmem : (ticket, result) ∈ results) :
    ((s.consume number).resolve results).result? ticket = some result := by
  obtain ⟨hdistinct, hnone⟩ := h.held_tickets hheld
  have hticket : ticket ∈ held.tickets := htickets ▸ List.mem_map_of_mem (f := Prod.fst) hmem
  exact result?_resolve_of_none (s := s.consume number) (hnone ticket hticket)
    (htickets ▸ hdistinct) hmem

/-- A consumed commit that fails gives every entry the same error. -/
theorem fail_consume (h : Sound merged s) {number : Nat} {held : Commit}
    (hheld : s.prepared? number = some held) (e : ClientError) :
    ((s.consume number).fail held e).prepared? number = none ∧
      ∀ entry ∈ held.entries,
        ((s.consume number).fail held e).result? entry.ticket = some (.error e) := by
  refine ⟨prepared?_consume s number, fun entry hentry => ?_⟩
  apply h.result?_consume hheld (tickets_failures held e)
  exact List.mem_map.2 ⟨entry, hentry, rfl⟩

theorem consumeLaws (h : Sound merged s) {number : Nat} {held : Commit}
    (hheld : s.prepared? number = some held) : ConsumeLaws s number held where
  settled := by
    -- Data answers every entry of the batch, and an error fails all of them alike
    intro outcome
    cases outcome with
    | ok data =>
      simp only [settle, hheld, distribute]
      refine ⟨prepared?_consume s number, fun entry hentry => ?_⟩
      apply h.result?_consume hheld (tickets_answers held data)
      exact List.mem_map.2 ⟨entry, hentry, rfl⟩
    | error e =>
      simp only [settle, hheld, distribute]
      exact h.fail_consume hheld (.request e)
  rejected := by
    intro e
    simp only [reject, hheld]
    exact h.fail_consume hheld e
  dropped := by
    simp only [dropCommit, hheld]
    exact h.fail_consume hheld .pendingResultDropped

end Sound

end Session

end QueryWeave
