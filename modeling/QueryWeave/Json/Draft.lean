import QueryWeave.Json

/-!
# Drafts of JSON Values

A JSON text as it was read, before its value is settled: repeated names still stand beside each
other, and a part that is well formed but has no value is only marked. What reads a record from a
draft can thus refuse a repeated field, and pass over a field it does not know whatever that field
holds.
-/

namespace QueryWeave

/-- A JSON text as read. Values and records are read from the same draft, but not under the same
conditions: a value needs all of the text to have one, a record only the fields that it knows. -/
inductive Draft where
  | null
  | bool (value : Bool)
  | number (value : Number)
  | string (value : String)
  | array (items : List Draft)
  /-- Members in the order of the text. A name without a value is `none`. -/
  | object (members : List (Option String × Draft))
  /-- Well formed, but without a value: a number out of range, half a surrogate pair, or a
  container nested too deeply. -/
  | beyond
  deriving Repr

namespace Draft

/-! ## §1 From a draft to its value -/

mutual

/-- The value of a draft, if all of it has one. A repeated name keeps its first place and takes its
last value. -/
def value? : Draft → Option Json
  | .null => some .null
  | .bool value => some (.bool value)
  | .number value => some (.number value)
  | .string value => some (.string value)
  | .array items => (values? items).map .array
  | .object members => (memberValues? members).map fun pairs => .object (Bindings.collapse pairs)
  | .beyond => none

def values? : List Draft → Option (List Json)
  | [] => some []
  | item :: rest => do
    let value ← value? item
    let others ← values? rest
    return value :: others

def memberValues? : List (Option String × Draft) → Option (List (String × Json))
  | [] => some []
  | (name, member) :: rest => do
    let name ← name
    let value ← value? member
    let others ← memberValues? rest
    return (name, value) :: others

end

mutual

/-- The draft of a value. -/
def ofJson : Json → Draft
  | .null => .null
  | .bool value => .bool value
  | .number value => .number value
  | .string value => .string value
  | .array items => .array (ofItems items)
  | .object members => .object (ofMembers members)

def ofItems : List Json → List Draft
  | [] => []
  | item :: rest => ofJson item :: ofItems rest

def ofMembers : List (String × Json) → List (Option String × Draft)
  | [] => []
  | (name, value) :: rest => (some name, ofJson value) :: ofMembers rest

end

/-! ## §2 Reading a part of a known shape -/

def bool? : Draft → Option Bool
  | .bool value => some value
  | _ => none

def string? : Draft → Option String
  | .string value => some value
  | _ => none

/-- The values of an array. -/
def items? : Draft → Option (List Json)
  | .array items => values? items
  | _ => none

/-- The members of an object. -/
def object? : Draft → Option JsonObject
  | .object members => (memberValues? members).map Bindings.collapse
  | _ => none

/-- What `read` makes of a part, where null stands for its absence. A field can thus be missing in
two ways, by not being there and by being null, and records of responses treat both alike. -/
def nullable {α : Type} (read : Draft → Option α) : Draft → Option (Option α)
  | .null => some none
  | draft => (read draft).map some

/-! ## §3 Records -/

/-- The part under a field of an object. Fails if the field is repeated, since a record, other than
an object that is read as a value, takes no second value for a field. -/
def field? (members : List (Option String × Draft)) (field : String) : Option (Option Draft) :=
  match members.filter fun member => member.1 = some field with
  | [] => some none
  | [member] => some (some member.2)
  | _ => none

/-- The parts of a record under its known fields, in the order of `fields`. A record is an object,
where other fields are passed over, or an array of the fields in order, where trailing ones may be
missing.

The array form is what readers of records accept besides objects; nothing here writes it. -/
def record? (fields : List String) : Draft → Option (List (Option Draft))
  | .object members =>
    if members.all fun member => member.1.isSome then fields.mapM (field? members) else none
  | .array items =>
    if items.length ≤ fields.length then
      some (items.map some ++ List.replicate (fields.length - items.length) none)
    else none
  | _ => none

/-- A field of a record, or a default where it is missing. -/
def fieldOr {α : Type} (absent : α) (read : Draft → Option α) : Option Draft → Option α
  | none => some absent
  | some draft => read draft

end Draft

end QueryWeave
