/-!
# Double-Precision Numbers

A double-precision number is a sign and a magnitude of 63 bits; a finite magnitude stands for
`significand * 2 ^ exponent`. Rounding is exact: a quotient of natural numbers goes to the
nearest magnitude, and a value halfway between two goes to the even one.
-/

namespace QueryWeave

/-! ## §1 Magnitudes -/

/-- The bit in front of the 52 bits of the fraction. -/
def leadingBit : Nat := 0x10000000000000

/-- The least word that is no finite magnitude. -/
def infiniteMagnitude : Nat := 0x7FF * leadingBit

/-- The significand of a finite magnitude. Magnitudes below `leadingBit` have no hidden bit. -/
def significandOf (magnitude : Nat) : Nat :=
  if magnitude < leadingBit then magnitude else leadingBit + magnitude % leadingBit

/-- The binary exponent of a finite magnitude. -/
def exponentOf (magnitude : Nat) : Int :=
  if magnitude < leadingBit then -1074 else (magnitude / leadingBit : Nat) - 1075

def powerAbove (e : Int) : Nat := Nat.pow 2 e.toNat

def powerBelow (e : Int) : Nat := Nat.pow 2 (-e).toNat

/-- A quotient rounded to the nearest natural number, a half to the even one. The remainder is
doubled and compared with the divisor, so that nothing is rounded on the way. -/
def roundHalfEven (num den : Nat) : Nat :=
  let quotient := num / den
  let twice := 2 * (num % den)
  if twice < den then quotient
  else if den < twice then quotient + 1
  else quotient + quotient % 2

/-- The greatest `k` with `2 ^ k ≤ num / den`, for a positive quotient. The lengths of the two
numbers give it up to one. -/
def floorLog2 (num den : Nat) : Int :=
  let k : Int := (Nat.log2 num : Int) - (Nat.log2 den : Int)
  if den * powerAbove k ≤ num * powerBelow k then k else k - 1

/-- The finite magnitude nearest to a quotient, or `none` where that is out of range.

This is the only place where anything is rounded: reading a literal, multiplying and dividing all
come here with an exact quotient. -/
def nearestMagnitude (num den : Nat) : Option Nat :=
  if num = 0 then some 0
  else
    let e := max (floorLog2 num den - 52) (-1074)
    let significand := roundHalfEven (num * powerBelow e) (den * powerAbove e)
    -- A significand of 53 bits carries into the exponent field by itself
    let magnitude := (e + 1074).toNat * leadingBit + significand
    if magnitude < infiniteMagnitude then some magnitude else none

def numeratorOf (magnitude : Nat) : Nat :=
  significandOf magnitude * powerAbove (exponentOf magnitude)

def denominatorOf (magnitude : Nat) : Nat :=
  powerBelow (exponentOf magnitude)

/-! ## §2 Numbers -/

/-- A finite double-precision number. The magnitude is the word without its sign bit, so that the
order of magnitudes is that of the words. -/
structure Double where
  negative : Bool
  magnitude : Nat
  deriving Repr, DecidableEq

namespace Double

/-- Whether the number has no fractional part. -/
def isIntegral (d : Double) : Bool :=
  numeratorOf d.magnitude % denominatorOf d.magnitude = 0

def multiply (a b : Nat) : Option Nat :=
  nearestMagnitude (numeratorOf a * numeratorOf b) (denominatorOf a * denominatorOf b)

/-- The quotient of two magnitudes, rounded; the divisor is not zero. -/
def divide (a b : Nat) : Option Nat :=
  nearestMagnitude (numeratorOf a * denominatorOf b) (denominatorOf a * numeratorOf b)

/-- The magnitude nearest to a power of ten, up to `10 ^ 308`. -/
def powerOfTen (k : Nat) : Option Nat :=
  nearestMagnitude (Nat.pow 10 k) 1

end Double

end QueryWeave
