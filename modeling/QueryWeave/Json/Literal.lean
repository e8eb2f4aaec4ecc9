import QueryWeave.Json

/-!
# Number Literals

How a JSON number is read. Its digits gather in a significand of 64 bits, and a digit that does
not fit is dropped with all that follow; the significand is rounded to a double-precision number and
multiplied or divided by a power of ten, each step rounded by itself. A literal without fraction
and exponent stays an integer as far as 64 bits reach. A literal that overflows has no value.
-/

namespace QueryWeave

/-- The parts of a number literal. -/
structure Literal where
  negative : Bool
  /-- Digits before the point, most significant first. -/
  whole : List Nat
  fraction : Option (List Nat)
  /-- Whether the exponent is negative, and its digits. -/
  exponent : Option (Bool × List Nat)
  deriving Repr, DecidableEq

namespace Literal

/-! ## §1 Syntax -/

def digitValue (c : Char) : Nat :=
  c.toNat - '0'.toNat

def takeDigits (cs : List Char) : List Nat × List Char :=
  ((cs.takeWhile Char.isDigit).map digitValue, cs.dropWhile Char.isDigit)

/-- The fraction at the front of a text, and the rest. A point needs a digit behind it. -/
def takeFraction : List Char → Option (Option (List Nat) × List Char)
  | '.' :: rest =>
    match takeDigits rest with
    | ([], _) => none
    | (digits, after) => some (some digits, after)
  | cs => some (none, cs)

def takeSign : List Char → Bool × List Char
  | '-' :: rest => (true, rest)
  | '+' :: rest => (false, rest)
  | cs => (false, cs)

/-- The exponent at the front of a text, and the rest. It needs a digit. -/
def takeExponent : List Char → Option (Option (Bool × List Nat) × List Char)
  | [] => some (none, [])
  | c :: rest =>
    if c = 'e' || c = 'E' then
      let (negative, unsigned) := takeSign rest
      match takeDigits unsigned with
      | ([], _) => none
      | (digits, after) => some (some (negative, digits), after)
    else some (none, c :: rest)

/-- A text that is one number literal. A leading zero stands alone, and a point or an exponent needs
digits behind it. -/
def ofChars? (cs : List Char) : Option Literal := do
  let (negative, unsigned) := match cs with
    | '-' :: rest => (true, rest)
    | cs => (false, cs)
  let (whole, behindWhole) := takeDigits unsigned
  guard (whole ≠ [] && (whole.head? ≠ some 0 || whole.length = 1))
  let (fraction, behindFraction) ← takeFraction behindWhole
  let (exponent, behindExponent) ← takeExponent behindFraction
  guard behindExponent.isEmpty
  return ⟨negative, whole, fraction, exponent⟩

/-! ## §2 Value -/

/-- The largest significand, of 64 bits. -/
def maxSignificand : Nat := 0xFFFFFFFFFFFFFFFF

/-- The largest exponent that is counted, of 31 bits. -/
def maxExponent : Nat := 0x7FFFFFFF

/-- The largest integer below zero, its sign aside. -/
def maxNegative : Nat := 0x8000000000000000

/-- Append digits to a number while it stays within `bound`; also the digits left over. -/
def gather (bound value : Nat) : List Nat → Nat × List Nat
  | [] => (value, [])
  | digit :: rest =>
    let next := value * 10 + digit
    if next ≤ bound then gather bound next rest else (value, digit :: rest)

/-- The significand of a literal, and the power of ten that the digits leave to it. Digits in front
of the point that are dropped raise the power, digits behind it that are taken lower it. -/
def significand (l : Literal) : Nat × Int :=
  let (whole, dropped) := gather maxSignificand 0 l.whole
  match l.fraction with
  | none => (whole, dropped.length)
  | some fraction =>
    let (value, unused) := gather maxSignificand whole fraction
    (value, (dropped.length : Int) - ((fraction.length - unused.length : Nat) : Int))

/-- A magnitude divided by a power of ten, in steps of at most `10 ^ 308`. Each step rounds, so that
the steps cannot be taken together. -/
def divideByTens (magnitude tens : Nat) : Option Nat :=
  if tens ≤ 308 then Double.powerOfTen tens >>= Double.divide magnitude
  else if magnitude = 0 then some 0
  else Double.powerOfTen 308 >>= Double.divide magnitude >>= (divideByTens · (tens - 308))
termination_by tens

/-- A significand times a power of ten as a magnitude, unless it overflows. -/
def scale (value : Nat) (tens : Int) : Option Nat := do
  let magnitude ← nearestMagnitude value 1
  if tens < 0 then divideByTens magnitude tens.natAbs
  else if tens ≤ 308 then Double.powerOfTen tens.natAbs >>= Double.multiply magnitude
  else if magnitude = 0 then some 0
  else none

/-- The magnitude of a literal with a fraction, an exponent, or too many digits. -/
def magnitude (l : Literal) : Option Nat :=
  let (value, tens) := l.significand
  match l.exponent with
  | none => scale value tens
  | some (negative, digits) =>
    let (exponent, unused) := gather maxExponent 0 digits
    if unused.isEmpty then scale value (if negative then tens - exponent else tens + exponent)
    else if value = 0 || negative then some 0
    else none

/-- The literal as a double-precision number. -/
def double (l : Literal) : Option Number :=
  l.magnitude.map fun magnitude => .float ⟨l.negative, magnitude⟩

/-- The number a literal stands for, unless it overflows. Minus zero is no integer, for its sign
would be lost. -/
def number (l : Literal) : Option Number :=
  match l.fraction, l.exponent with
  | none, none =>
    let (value, dropped) := gather maxSignificand 0 l.whole
    if !dropped.isEmpty then l.double
    else if !l.negative then some (.int value)
    else if 0 < value && value ≤ maxNegative then some (.int (-value))
    else l.double
  | _, _ => l.double

end Literal

end QueryWeave
