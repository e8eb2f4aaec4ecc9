import QueryWeave.Batch.Entry

/-!
# Commits

A drained batch: one document for all its entries, the variables sent with it, and what each
entry makes of the answer.
-/

namespace QueryWeave

/-- The entries drained from a batch, in the order in which they were merged. -/
structure Commit where
  batchKey : String
  entries : List Entry
  deriving Repr

namespace Commit

/-! ## §1 What is sent -/

def declarations (c : Commit) : List Declaration :=
  c.entries.flatMap Entry.declarations

/-- The text in front of the selections. The keyword is that of a query, whatever the operations
were. -/
def opening (c : Commit) : String :=
  if c.declarations.isEmpty then "query \x7b\n"
  else "query (" ++ Declaration.listText c.declarations ++ ") \x7b\n"

/-- The fragment definitions of all entries. Of definitions under one name the first counts, also
where a later entry brought another text along under that name. -/
def fragments (c : Commit) : Bindings String :=
  c.entries.foldl
    (fun known entry => entry.fragments.foldl (fun acc f => Bindings.putNew f.1 f.2 acc) known) []

/-- The document: one operation with the selections of all entries, and the definitions below it. -/
def document (c : Commit) : String :=
  c.opening ++ String.join (c.entries.map Entry.selection) ++ " \x7d" ++
    String.join (c.fragments.map fun f => "\n" ++ f.2)

def values (c : Commit) : JsonObject :=
  -- Aliases keep the names of different entries apart, as long as they are different
  c.entries.foldl (fun known entry => Bindings.putAll known entry.values) []

/-- The error of the first entry that lacks a variable. It is looked for in merge order, and nothing
is sent if there is one. -/
def missing? (c : Commit) : Option ClientError :=
  c.entries.findSome? fun entry =>
    entry.missingVariable?.map fun name => .missingVariable entry.aliasName name

/-! ## §2 What comes back -/

/-- The value under a response key, null where there is none. -/
def valueIn (data : JsonObject) (key : String) : Json :=
  (data.find? key).getD .null

/-- The data of one entry, under the keys that its caller expects. A key that did not come back is
null, and a key that is selected twice is there once. -/
def dataFor (data : JsonObject) (entry : Entry) : JsonObject :=
  entry.fields.foldl (fun known field => known.put field.expected (valueIn data field.aliased)) []

/-- Append a value to the list under a name. -/
def collect (known : Bindings (List Json)) (name : String) (value : Json) : Bindings (List Json) :=
  known.put name ((known.find? name).getD [] ++ [value])

/-- The values of all entries under the keys that their callers expect, in merge order. One value is
added for each field, so that a field that one entry selects twice counts twice. -/
def aggregate (c : Commit) (data : JsonObject) : JsonObject :=
  let values := (c.entries.flatMap Entry.fields).foldl
    (fun known field => collect known field.expected (valueIn data field.aliased)) []
  values.map fun binding => (binding.1, .array binding.2)

def tickets (c : Commit) : List Nat :=
  c.entries.map Entry.ticket

/-- The result of every entry, by ticket, when all of them fail. -/
def failures (c : Commit) (e : ClientError) : List (Nat × OperationResult) :=
  c.entries.map fun entry => (entry.ticket, .error e)

/-- The result of every entry, by ticket, when the request gives data. -/
def answers (c : Commit) (data : JsonObject) : List (Nat × OperationResult) :=
  c.entries.map fun entry => (entry.ticket, .ok (dataFor data entry))

end Commit

end QueryWeave
