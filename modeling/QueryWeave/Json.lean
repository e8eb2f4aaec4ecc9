import QueryWeave.Bindings
import QueryWeave.Decimal.Double

/-!
# JSON Values

Values with the members of an object in the order in which they were first written, each name
once. A number is an integer as far as 64 bits reach, and a double-precision number beyond.
-/

namespace QueryWeave

/-- A JSON number. A literal with a point or an exponent is a float even if its value is whole;
whether it is declared as `Int` is decided by the value (`Number.isIntegral`), not by how it was
written. -/
inductive Number where
  | int (value : Int)
  | float (value : Double)
  deriving Repr, DecidableEq

/-- Whether a number has no fractional part. -/
def Number.isIntegral : Number → Bool
  | int _ => true
  | float value => value.isIntegral

/-- A JSON value. -/
inductive Json where
  | null
  | bool (value : Bool)
  | number (value : Number)
  | string (value : String)
  | array (items : List Json)
  | object (members : List (String × Json))
  deriving Repr

/-- The data of a response, or the variables of an operation: a JSON object by itself. -/
abbrev JsonObject := Bindings Json

end QueryWeave
