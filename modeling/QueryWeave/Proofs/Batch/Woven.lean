import QueryWeave.Batch.Entry

/-!
# Woven Entries

What lies behind an entry that was woven from a template: the compiled operation, its outline,
the fragments the entry takes along, and the aliased selections. Everything an entry holds is a
function of these.
-/

namespace QueryWeave

/-- A run that goes on behind a step with renamed errors got past that step. -/
private theorem past_mapError {ε ε' α β : Type} {f : ε → ε'} {x : Except ε α}
    {next : α → Except ε' β} {result : β} (h : (x.mapError f >>= next) = .ok result) :
    ∃ a, x = .ok a ∧ next a = .ok result := by
  cases x with
  | error e =>
    have hstop : (Except.error (f e) : Except ε' β) = .ok result := h
    cases hstop
  | ok a => exact ⟨a, rfl, h⟩

/-- How an entry comes from a template and its variables against a library: the operation is
compiled and outlined, the fragments it needs are isolated, and its selections are aliased. The
equations say where each field of the entry is taken from. All that is proved of entries is proved
from this record, and not from the function that weaves them. -/
structure Woven (lib : Library) (template : Template) (values : JsonObject) (entry : Entry) where
  compiled : Compiled
  compiles : lib.compile template values true = .ok compiled
  outline : Outline
  outlines : Outline.ofText? compiled.operation = some outline
  fragments : EntryFragments
  isolates : lib.isolate entry.aliasName compiled.fragmentNames = .ok fragments
  /-- The aliased selections, still without the line feed at their end. -/
  selection : List Char
  aliases : aliasSelections entry.aliasName fragments.copied
    (Text.dropBlank outline.selectionChars) = some (selection, entry.fields)
  declarations_eq : entry.declarations =
    compiled.declarations.map (Declaration.toEntry entry.aliasName)
  defaulted_eq : entry.defaulted =
    (compiled.declarations.filter (·.defaultText.isSome)).map Declaration.name
  fragments_eq : entry.fragments = fragments.definitions
  referenced_eq : entry.referenced =
    Names.addAll outline.referencedVariables fragments.referenced
  selection_eq : entry.selection = String.ofList (Entry.endLine selection)
  supplied_eq : entry.supplied = stripModifiers values

namespace Entry

/-- An entry made of a compiled operation has the ticket, the alias and the batch key it was made
for, and was woven from that operation. -/
theorem woven_of_ofCompiled {lib : Library} {ticket : Nat} {aliasName batchKey : String}
    {template : Template} {values : JsonObject} {compiled : Compiled} {entry : Entry}
    (hcompile : lib.compile template values true = .ok compiled)
    (h : ofCompiled lib ticket aliasName batchKey compiled values = .ok entry) :
    (entry.ticket = ticket ∧ entry.aliasName = aliasName ∧ entry.batchKey = batchKey) ∧
      Nonempty (Woven lib template values entry) := by
  unfold ofCompiled at h
  -- The steps that can fail are passed one after the other: outline, isolation, selection
  cases hout : Outline.ofText? compiled.operation with
  | none => simp [hout, throw, throwThe, MonadExceptOf.throw] at h
  | some outline =>
    simp only [hout] at h
    obtain ⟨fragments, hiso, h⟩ := past_mapError h
    split at h
    · simp [throw, throwThe, MonadExceptOf.throw] at h
    · rename_i selection fields hsel
      simp only [pure, Except.pure, Except.ok.injEq] at h
      subst h
      exact ⟨⟨rfl, rfl, rfl⟩, ⟨{
        compiled, outline, fragments, selection
        compiles := hcompile
        outlines := hout
        isolates := hiso
        aliases := hsel
        declarations_eq := rfl
        defaulted_eq := rfl
        fragments_eq := rfl
        referenced_eq := rfl
        selection_eq := rfl
        supplied_eq := rfl }⟩⟩

/-- The same for an entry woven from a template. -/
theorem woven_of_weave {lib : Library} {ticket : Nat} {aliasName batchKey : String}
    {template : Template} {values : JsonObject} {entry : Entry}
    (h : weave lib ticket aliasName batchKey template values = .ok entry) :
    (entry.ticket = ticket ∧ entry.aliasName = aliasName ∧ entry.batchKey = batchKey) ∧
      Nonempty (Woven lib template values entry) := by
  unfold weave at h
  obtain ⟨compiled, hcompile, hentry⟩ := past_mapError h
  exact woven_of_ofCompiled hcompile hentry

end Entry

end QueryWeave
