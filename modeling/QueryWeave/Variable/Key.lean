import QueryWeave.Json
import QueryWeave.Operation.Declaration

/-!
# Variable Keys

Variables are given under keys that may carry a modifier behind the name:

* `name` and `name!` have their type inferred from the value;
* `name!Type` and `name![Type]` have the type written, and are declared non-null.

Inference types strings, truth values, integral and other numbers, and arrays by their first
item. A string or number under a name that speaks of an identifier is an identifier.
-/

namespace QueryWeave

/-! ## §1 Keys -/

/-- What stands behind the name in a key. -/
inductive Modifier where
  | none
  | nonNull
  | typed (typeText : String)
  deriving Repr, DecidableEq

/-- A key split into name and modifier. -/
structure VariableKey where
  name : String
  modifier : Modifier
  deriving Repr, DecidableEq

namespace VariableKey

/-- Split a key at its first exclamation mark. What stands behind is a type as it is written, and is
not looked at: whatever it is, it goes into the signature. -/
def read (key : String) : VariableKey :=
  let name := String.ofList (key.toList.takeWhile (· ≠ '!'))
  match key.toList.dropWhile (· ≠ '!') with
  | [] => ⟨name, .none⟩
  | [_] => ⟨name, .nonNull⟩
  -- `name!!` is typed as well, with an exclamation mark for its type
  | _ :: typeText => ⟨name, .typed (String.ofList typeText)⟩

/-- Whether the key forces its variable to be non-null. -/
def forcesNonNull (key : VariableKey) : Bool :=
  key.modifier ≠ .none

/-- The type written in the key. -/
def writtenType? (key : VariableKey) : Option String :=
  match key.modifier with
  | .typed typeText => some typeText
  | _ => none

end VariableKey

/-! ## §2 Types of values -/

/-- Whether a name speaks of an identifier. -/
def namesIdentifier (name : String) : Bool :=
  name = "id" || ['I', 'd'].isSuffixOf name.toList || ['I', 'D'].isSuffixOf name.toList

/-- The type of a single value, if it has one. -/
def scalarType? : Json → Option String
  | .bool _ => some "Boolean"
  | .number value => some (if value.isIntegral then "Int" else "Float")
  | .string _ => some "String"
  | _ => none

/-- The declared type of a variable under a name, from its value.

Without a value only the name can tell. An array is typed by its first item alone, and a name that
speaks of an identifier outweighs a string or a number, but neither a truth value nor an array. -/
def inferType? (name : String) : Option Json → Option String
  | none => if namesIdentifier name then some "ID!" else none
  -- An empty array has no first item, and a null no type at all
  | some (.array []) => none
  | some (.array (first :: _)) => (scalarType? first).map fun item => "[" ++ item ++ "!]!"
  | some value =>
    match value with
    | .string _ | .number _ =>
      if namesIdentifier name then some "ID!" else (scalarType? value).map (· ++ "!")
    | _ => (scalarType? value).map (· ++ "!")

/-- The declaration of the variable of a key, if it has a type. A written type is made non-null even
if it is so already, as in `name!Type!`. -/
def VariableKey.declaration? (key : VariableKey) (value : Option Json) : Option Declaration :=
  match key.modifier with
  | .typed typeText => some ⟨key.name, typeText ++ "!", none⟩
  | _ => (inferType? key.name value).map fun typeText => ⟨key.name, typeText, none⟩

end QueryWeave
