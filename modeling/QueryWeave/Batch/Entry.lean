import QueryWeave.Batch.Isolation
import QueryWeave.ClientError
import QueryWeave.Operation.Compile

/-!
# Batch Entries

An operation that waits in a batch: compiled by itself, with its declarations, fields, variables
and fragments under the names of its alias, so that it can stand beside other entries in one
document.
-/

namespace QueryWeave

/-- A declaration under its name for the entry `aliasName`. -/
def Declaration.toEntry (aliasName : String) (d : Declaration) : Declaration :=
  { d with name := entryVariable aliasName d.name }

/-- An operation in a batch.

The texts and the declarations go by the entry's names. What is only looked up, by the caller or by
the check for missing variables, goes by the names of the operation. -/
structure Entry where
  /-- The number under which the caller waits for the result. -/
  ticket : Nat
  aliasName : String
  batchKey : String
  /-- The declarations under the entry's names. -/
  declarations : List Declaration
  /-- The variables declared with a default, by their own names. -/
  defaulted : List String
  fields : List ResponseField
  /-- Fragment definitions under the names they are written by. -/
  fragments : Bindings String
  /-- The variables referenced, by their own names. -/
  referenced : List String
  selection : String
  /-- The values supplied, by the variables' own names. -/
  supplied : JsonObject
  deriving Repr

namespace Entry

/-- The values supplied, under the entry's names. -/
def values (e : Entry) : JsonObject :=
  e.supplied.map fun binding => (entryVariable e.aliasName binding.1, binding.2)

/-- The first referenced variable that has neither a value nor a default. Fragments count as much as
the selections do. -/
def missingVariable? (e : Entry) : Option String :=
  e.referenced.find? fun name => !e.supplied.binds name && name ∉ e.defaulted

/-- A text that ends with a line feed. It ends a comment behind the selections, so that the entry
next in the document is not swallowed. -/
def endLine (cs : List Char) : List Char :=
  if cs.getLast? = some '\n' then cs else cs ++ ['\n']

/-- The entry of an operation that is compiled already. Its selections are found by looking at the
compiled text again, since the signature in front of them may have changed. -/
def ofCompiled (lib : Library) (ticket : Nat) (aliasName batchKey : String) (compiled : Compiled)
    (values : JsonObject) : Except ClientError Entry := do
  match Outline.ofText? compiled.operation with
  | none => throw (.compile (.unbalancedTemplate compiled.operation))
  | some outline =>
    -- Isolation comes first, since the selections spread copies under their new names
    let fragments ← (lib.isolate aliasName compiled.fragmentNames).mapError .compile
    match aliasSelections aliasName fragments.copied (Text.dropBlank outline.selectionChars) with
    | none => throw (.topLevelFragment aliasName batchKey)
    | some (selection, fields) =>
      return {
        ticket, aliasName, batchKey, fields
        declarations := compiled.declarations.map (Declaration.toEntry aliasName)
        defaulted := (compiled.declarations.filter (·.defaultText.isSome)).map Declaration.name
        fragments := fragments.definitions
        -- In the order in which a missing variable is looked for: the selections, then the bodies
        referenced := Names.addAll outline.referencedVariables fragments.referenced
        selection := String.ofList (endLine selection)
        supplied := stripModifiers values }

/-- The entry of a template. Declarations left out are inferred, whatever the client does with an
operation that is sent by itself: an entry without declarations could not be sent with others. -/
def weave (lib : Library) (ticket : Nat) (aliasName batchKey : String) (template : Template)
    (values : JsonObject) : Except ClientError Entry := do
  let compiled ← (lib.compile template values true).mapError .compile
  ofCompiled lib ticket aliasName batchKey compiled values

end Entry

end QueryWeave
