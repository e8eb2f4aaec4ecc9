import QueryWeave.Decimal.Shortest
import QueryWeave.Json

/-!
# Writing JSON

Two layouts of a JSON value: compact, without any blank, and indented by two blanks. Strings escape
the quote, the backslash and the control characters below U+0020; all else stands as it is. A float
is written with its shortest digits, plainly from `1e-5` to below `1e16`, and with a signed exponent
elsewhere.

Infinities and the values that are no numbers have no layout here: no text is read as one of them,
and no float comes from anywhere else. Writing does not fail, for there is no device behind it that
could.
-/

namespace QueryWeave.Json

/-! ## §1 Strings -/

def hexDigit (n : Nat) : Char :=
  Nat.digitChar n

/-- A character as it stands inside quotes. Only what JSON forbids inside of a string is escaped,
and with the short form where there is one. -/
def escape (c : Char) : List Char :=
  if c = '"' then ['\\', '"']
  else if c = '\\' then ['\\', '\\']
  else if c = '\x08' then ['\\', 'b']
  else if c = '\x0C' then ['\\', 'f']
  else if c = '\n' then ['\\', 'n']
  else if c = '\r' then ['\\', 'r']
  else if c = '\t' then ['\\', 't']
  else if c.toNat < 0x20 then
    ['\\', 'u', '0', '0', hexDigit (c.toNat / 16), hexDigit (c.toNat % 16)]
  else [c]

def quote (s : String) : List Char :=
  '"' :: s.toList.flatMap escape ++ ['"']

/-! ## §2 Numbers -/

def natChars (n : Nat) : List Char :=
  Nat.toDigits 10 n

def intChars (n : Int) : List Char :=
  if n < 0 then '-' :: natChars n.natAbs else natChars n.natAbs

/-- The exponent part of the scientific form, always signed. -/
def exponentChars (e : Int) : List Char :=
  'e' :: (if e < 0 then '-' else '+') :: natChars e.natAbs

/-- A decimal in the layout that its size asks for. `point` counts the digits in front of the
decimal point.

A whole number keeps a point and a zero, so that it is read back as a float; small and large ones
take an exponent. -/
def decimalChars (d : Decimal) : List Char :=
  let digits := natChars d.digits
  let point : Int := digits.length + d.exponent
  if 0 ≤ d.exponent && point ≤ 16 then
    digits ++ List.replicate d.exponent.toNat '0' ++ ['.', '0']
  else if 0 < point && point ≤ 16 then
    digits.take point.toNat ++ '.' :: digits.drop point.toNat
  else if -5 < point && point ≤ 0 then
    '0' :: '.' :: List.replicate (-point).toNat '0' ++ digits
  else
    match digits with
    | [] => []
    | [digit] => digit :: exponentChars (point - 1)
    | digit :: rest => digit :: '.' :: rest ++ exponentChars (point - 1)

def doubleChars (d : Double) : List Char :=
  let text := decimalChars (Decimal.shortest d.magnitude)
  if d.negative then '-' :: text else text

def numberChars : Number → List Char
  | .int value => intChars value
  | .float value => doubleChars value

def boolChars (value : Bool) : List Char :=
  if value then ['t', 'r', 'u', 'e'] else ['f', 'a', 'l', 's', 'e']

def nullChars : List Char := ['n', 'u', 'l', 'l']

/-! ## §3 The compact layout -/

mutual

/-- A value without blanks, as it is sent and as it is quoted in messages. -/
def compactChars : Json → List Char
  | .null => nullChars
  | .bool value => boolChars value
  | .number value => numberChars value
  | .string value => quote value
  | .array items => '[' :: compactItems items ++ [']']
  | .object members => '{' :: compactMembers members ++ ['}']

def compactItems : List Json → List Char
  | [] => []
  | [item] => compactChars item
  | item :: next :: rest => compactChars item ++ ',' :: compactItems (next :: rest)

def compactMembers : List (String × Json) → List Char
  | [] => []
  | [(name, value)] => quote name ++ ':' :: compactChars value
  | (name, value) :: next :: rest =>
    quote name ++ ':' :: compactChars value ++ ',' :: compactMembers (next :: rest)

end

def compact (value : Json) : String :=
  String.ofList (compactChars value)

/-! ## §4 The indented layout -/

/-- A line break and the indentation of a nesting depth. -/
def lineStart (depth : Nat) : List Char :=
  '\n' :: List.replicate (2 * depth) ' '

mutual

/-- A value on lines of its own, nested `depth` deep. An empty container stays on its line. -/
def indentedChars (depth : Nat) : Json → List Char
  | .null => nullChars
  | .bool value => boolChars value
  | .number value => numberChars value
  | .string value => quote value
  | .array [] => ['[', ']']
  | .array (item :: rest) =>
    '[' :: indentedItems (depth + 1) (item :: rest) ++ lineStart depth ++ [']']
  | .object [] => ['{', '}']
  | .object (member :: rest) =>
    '{' :: indentedMembers (depth + 1) (member :: rest) ++ lineStart depth ++ ['}']

def indentedItems (depth : Nat) : List Json → List Char
  | [] => []
  | [item] => lineStart depth ++ indentedChars depth item
  | item :: next :: rest =>
    lineStart depth ++ indentedChars depth item ++ ',' :: indentedItems depth (next :: rest)

def indentedMembers (depth : Nat) : List (String × Json) → List Char
  | [] => []
  | [(name, value)] => lineStart depth ++ quote name ++ ':' :: ' ' :: indentedChars depth value
  | (name, value) :: next :: rest =>
    lineStart depth ++ quote name ++ ':' :: ' ' :: indentedChars depth value ++
      ',' :: indentedMembers depth (next :: rest)

end

def indented (value : Json) : String :=
  String.ofList (indentedChars 0 value)

end QueryWeave.Json
