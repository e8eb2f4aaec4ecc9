import QueryWeave.Proofs.Batch.Run
import QueryWeave.Proofs.Batch.Woven
import QueryWeave.Proofs.Bindings

/-!
# Where the Tickets Are

Every ticket that a session hands out is in one of three places: its entry waits under its batch
key, its entry is held by a prepared commit of that key, or the ticket has a result. The
invariant says that the tickets of the three places together are the tickets handed out, each
once. A step moves tickets from one place to the next and loses none.

- `Sound.run`: the invariant holds behind every run.
- `sound_run`: so it holds behind every run of a new session.
-/

namespace QueryWeave.Session

/-! ## §1 The three places

`Sound` says where the tickets are: the waiting, the held and the answered ones are together those
that were handed out, each once. It is kept by every step, and all laws of tickets are read off
it. -/

def waitingTickets (s : Session) : List Nat :=
  Bindings.gather (List.map Entry.ticket) s.waiting

def heldTickets (s : Session) : List Nat :=
  s.commits.flatMap fun held => (held.map Commit.tickets).getD []

def answeredTickets (s : Session) : List Nat :=
  s.results.map Prod.fst

/-- What holds of a session that has merged the entries `merged`. The tickets of the entries are the
numbers in order, every one of them is in exactly one of the three places, and the entries that wait
or are held were merged under the key they are found under. -/
structure Sound (merged : List Entry) (s : Session) : Prop where
  distinctKeys : (Bindings.names s.waiting).Nodup
  issued : merged.map Entry.ticket = List.range s.issued
  everyTicket : (s.waitingTickets ++ s.heldTickets ++ s.answeredTickets).Perm
    (List.range s.issued)
  waits : ∀ key entries, (key, entries) ∈ s.waiting →
    ∀ entry ∈ entries, entry ∈ merged ∧ entry.batchKey = key
  holds : ∀ held, some held ∈ s.commits →
    ∀ entry ∈ held.entries, entry ∈ merged ∧ entry.batchKey = held.batchKey

theorem sound_start (codes : AliasCodes) : Sound [] (start codes) where
  distinctKeys := List.nodup_nil
  issued := rfl
  everyTicket := List.Perm.refl _
  waits := by simp [start]
  holds := by simp [start]

theorem Sound.mem_entriesUnder {merged : List Entry} {s : Session} (h : Sound merged s)
    {batchKey : String} {entry : Entry} (hmem : entry ∈ s.entriesUnder batchKey) :
    entry ∈ merged ∧ entry.batchKey = batchKey := by
  unfold entriesUnder at hmem
  cases hfind : s.waiting.find? batchKey with
  | none => simp [hfind] at hmem
  | some entries =>
    rw [hfind] at hmem
    exact h.waits batchKey entries (Bindings.mem_of_find? hfind) entry hmem

/-! ## §2 How tickets move

There are three ways for a ticket to move: into a batch, from a batch to a prepared commit, and from
either of them to a result. -/

/-- Helper: the tickets under a key, whether or not the key is bound. -/
private theorem getD_map_entriesUnder (s : Session) (batchKey : String) :
    ((s.waiting.find? batchKey).map (List.map Entry.ticket)).getD [] =
      (s.entriesUnder batchKey).map Entry.ticket := by
  unfold entriesUnder
  cases s.waiting.find? batchKey <;> rfl

/-- Putting an entry behind those under a key adds its ticket to the tickets that wait. -/
theorem waitingTickets_put (s : Session) (batchKey : String) (entry : Entry) :
    (Bindings.gather (List.map Entry.ticket)
        (s.waiting.put batchKey (s.entriesUnder batchKey ++ [entry]))).Perm
      (s.waitingTickets ++ [entry.ticket]) := by
  have hput := Bindings.gather_put_perm (List.map Entry.ticket) batchKey
    (s.entriesUnder batchKey ++ [entry]) s.waiting
  rw [getD_map_entriesUnder, List.map_append] at hput
  rw [List.perm_iff_count] at hput ⊢
  intro ticket
  have hcount := hput ticket
  simp only [List.count_append, waitingTickets, List.map_cons, List.map_nil] at hcount ⊢
  omega

/-- Unbinding a key takes the tickets under it away from the tickets that wait. -/
theorem waitingTickets_drop {s : Session} (h : (Bindings.names s.waiting).Nodup)
    (batchKey : String) :
    s.waitingTickets.Perm ((s.entriesUnder batchKey).map Entry.ticket ++
      (s.drained batchKey).waitingTickets) := by
  have hdrop := Bindings.gather_drop_perm (List.map Entry.ticket) batchKey h
  rwa [getD_map_entriesUnder] at hdrop

/-- Consuming a prepared commit takes its tickets away from the tickets that are held. -/
theorem heldTickets_consume {s : Session} {number : Nat} {held : Commit}
    (h : s.prepared? number = some held) :
    s.heldTickets.Perm (held.tickets ++ (s.consume number).heldTickets) := by
  simp only [prepared?, heldTickets, consume] at h ⊢
  generalize s.commits = commits at h ⊢
  -- Down the list of commits to the one that is consumed; its tickets are moved to the front
  induction commits generalizing number with
  | nil => simp at h
  | cons first rest ih =>
    cases number with
    | zero =>
      simp only [List.getElem?_cons_zero, Option.join_some] at h
      subst h
      simp
    | succ number =>
      simp only [List.getElem?_cons_succ] at h
      rw [List.set_cons_succ, List.flatMap_cons, List.flatMap_cons]
      exact ((ih h).append_left _).trans (List.perm_append_comm_assoc ..)

theorem mem_commits_of_prepared? {s : Session} {number : Nat} {held : Commit}
    (h : s.prepared? number = some held) : some held ∈ s.commits := by
  unfold prepared? at h
  cases hget : s.commits[number]? with
  | none => simp [hget] at h
  | some slot =>
    rw [hget, Option.join_some] at h
    exact h ▸ List.mem_of_getElem? hget

/-! ## §3 Single steps keep the invariant -/

namespace Sound

variable {merged : List Entry} {s : Session}

/-- Only the batches, the number of tickets, the commits and the results matter. -/
theorem of_eq {s' : Session} (h : Sound merged s) (hwaiting : s'.waiting = s.waiting)
    (hissued : s'.issued = s.issued) (hcommits : s'.commits = s.commits)
    (hresults : s'.results = s.results) : Sound merged s' := by
  constructor
  · exact hwaiting ▸ h.distinctKeys
  · exact hissued ▸ h.issued
  · simp only [waitingTickets, heldTickets, answeredTickets, hwaiting, hissued, hcommits, hresults]
    exact h.everyTicket
  · exact hwaiting ▸ h.waits
  · exact hcommits ▸ h.holds

/-- A new entry goes behind those that wait under its key. Its ticket is the next one, and it is in
no other place yet. -/
theorem put (h : Sound merged s) {batchKey : String} {entry : Entry} (codes : AliasCodes)
    (hticket : entry.ticket = s.issued) (hkey : entry.batchKey = batchKey) :
    Sound (merged ++ [entry])
      { s with
        codes
        waiting := s.waiting.put batchKey (s.entriesUnder batchKey ++ [entry])
        issued := s.issued + 1 } where
  distinctKeys := Bindings.nodup_names_put h.distinctKeys
  issued := by
    rw [List.map_append, h.issued, List.range_succ, List.map_singleton, hticket]
  everyTicket := by
    -- Permutations are compared ticket by ticket, by how often each occurs
    have hput := waitingTickets_put s batchKey entry
    have hall := h.everyTicket
    rw [List.perm_iff_count] at hput hall ⊢
    intro ticket
    have hput := hput ticket
    have hall := hall ticket
    simp only [List.count_append, List.range_succ, waitingTickets, heldTickets, answeredTickets,
      hticket] at hput hall ⊢
    omega
  waits := by
    intro key entries hmem e he
    rcases Bindings.mem_put hmem with ⟨rfl, rfl⟩ | hold
    · -- The batch that grew: its old entries, and the new one
      rcases List.mem_append.1 he with hwaits | hnew
      · have hunder := h.mem_entriesUnder hwaits
        exact ⟨List.mem_append_left _ hunder.1, hunder.2⟩
      · rw [List.mem_singleton] at hnew
        subst hnew
        exact ⟨List.mem_append_right _ (List.mem_singleton_self _), hkey⟩
    · have hbefore := h.waits key entries hold e he
      exact ⟨List.mem_append_left _ hbefore.1, hbefore.2⟩
  holds := by
    intro held hmem e he
    have hbefore := h.holds held hmem e he
    exact ⟨List.mem_append_left _ hbefore.1, hbefore.2⟩

/-- A drained batch that is answered at once moves its tickets to those that have a result. -/
theorem drop_resolve (h : Sound merged s) (batchKey : String)
    (results : List (Nat × OperationResult))
    (hresults : results.map Prod.fst = (s.batch batchKey).tickets) :
    Sound merged ((s.drained batchKey).resolve results) where
  distinctKeys := Bindings.nodup_names_drop h.distinctKeys
  issued := h.issued
  everyTicket := by
    -- What the batch held is no longer among the tickets that wait, but among those with a result
    have hdrop := waitingTickets_drop h.distinctKeys batchKey
    have hall := h.everyTicket
    rw [List.perm_iff_count] at hdrop hall ⊢
    intro ticket
    have hdrop := hdrop ticket
    have hall := hall ticket
    simp only [List.count_append, waitingTickets, heldTickets, answeredTickets, resolve,
      List.map_append, hresults, drained, Commit.tickets, batch] at hdrop hall ⊢
    omega
  waits := fun key entries hmem => h.waits key entries (List.mem_filter.1 hmem).1
  holds := h.holds

/-- A drained batch that is kept as a prepared commit moves its tickets to those that are held. No
result is given, so nothing that was answered changes. -/
theorem drop_keep (h : Sound merged s) (batchKey : String) :
    Sound merged
      { s.drained batchKey with commits := s.commits ++ [some (s.batch batchKey)] } where
  distinctKeys := Bindings.nodup_names_drop h.distinctKeys
  issued := h.issued
  everyTicket := by
    -- What the batch held is no longer among the tickets that wait, but among those of a commit
    have hdrop := waitingTickets_drop h.distinctKeys batchKey
    have hall := h.everyTicket
    rw [List.perm_iff_count] at hdrop hall ⊢
    intro ticket
    have hdrop := hdrop ticket
    have hall := hall ticket
    simp only [List.count_append, waitingTickets, heldTickets, answeredTickets,
      List.flatMap_append, List.flatMap_cons, List.flatMap_nil, List.append_nil, Option.map_some,
      Option.getD_some, Commit.tickets, drained, batch] at hdrop hall ⊢
    omega
  waits := fun key entries hmem => h.waits key entries (List.mem_filter.1 hmem).1
  holds := by
    intro held hmem entry hentry
    rcases List.mem_append.1 hmem with hold | hnew
    · exact h.holds held hold entry hentry
    · -- The new commit holds what waited under its key
      rw [List.mem_singleton, Option.some.injEq] at hnew
      subst hnew
      exact h.mem_entriesUnder hentry

/-- A prepared commit that is consumed and answered moves its tickets to those that have a
result. -/
theorem consume_resolve (h : Sound merged s) {number : Nat} {held : Commit}
    (hheld : s.prepared? number = some held) {results : List (Nat × OperationResult)}
    (hresults : results.map Prod.fst = held.tickets) :
    Sound merged ((s.consume number).resolve results) where
  distinctKeys := h.distinctKeys
  issued := h.issued
  everyTicket := by
    -- Every ticket of the commit is given a result in the step that takes the commit away
    have hconsume := heldTickets_consume hheld
    have hall := h.everyTicket
    rw [List.perm_iff_count] at hconsume hall ⊢
    intro ticket
    have hconsume := hconsume ticket
    have hall := hall ticket
    simp only [List.count_append, waitingTickets, heldTickets, answeredTickets, resolve, consume,
      List.map_append, hresults] at hconsume hall ⊢
    omega
  waits := h.waits
  holds := by
    intro other hmem
    rcases List.mem_or_eq_of_mem_set hmem with hold | hnew
    · exact h.holds other hold
    · cases hnew

/-! ## §4 Steps and runs -/

/-- A step keeps the invariant, whatever it does and whether or not it succeeds. The cases are those
of `Session.Moves`: nothing moves, an entry comes to those that wait, a batch leaves them, or a
commit is consumed. -/
theorem step (h : Sound merged s) (next : SessionStep) :
    Sound (merged ++ (s.mergedBy next).toList) (s.step next) := by
  have hmoves := s.moves next
  generalize s.step next = s' at hmoves
  cases hmoves with
  | idle hmerged _ hwaiting hissued hcommits hresults =>
    rw [hmerged, Option.toList_none, List.append_nil]
    exact h.of_eq hwaiting hissued hcommits hresults
  | merged hweave =>
    simp only [mergedBy, hweave, Except.toOption, Option.toList_some]
    obtain ⟨⟨hticket, -, hkey⟩, -⟩ := Entry.woven_of_weave hweave
    exact h.put _ hticket hkey
  | @committed key _ hcommitted =>
    simp only [mergedBy, Option.toList_none, List.append_nil]
    cases hcommitted with
    | empty hnone =>
      -- Nothing was drained, and so nothing needs a result
      have hdropped := h.drop_resolve key [] (by simp [Commit.tickets, batch, hnone])
      exact hdropped.of_eq rfl rfl rfl (by simp [resolve, drained])
    | failed => exact h.drop_resolve key _ (tickets_failures ..)
    | held => exact h.drop_keep key
  | consumed hmerged _ hheld htickets =>
    rw [hmerged, Option.toList_none, List.append_nil]
    exact h.consume_resolve hheld htickets

/-- A run keeps the invariant. -/
theorem run (h : Sound merged s) (steps : List SessionStep) :
    Sound (merged ++ s.mergedIn steps) (s.run steps) := by
  induction steps generalizing merged s with
  | nil => simpa [mergedIn] using h
  | cons next rest ih =>
    have hrest := ih (h.step next)
    rwa [List.append_assoc] at hrest

end Sound

/-- The invariant holds behind every run of a new session. -/
theorem sound_run (codes : AliasCodes) (steps : List SessionStep) :
    Sound ((start codes).mergedIn steps) ((start codes).run steps) := by
  have hrun := (sound_start codes).run steps
  rwa [List.nil_append] at hrun

end QueryWeave.Session
