import QueryWeave.Decimal.Double

/-!
# Shortest Decimals

The decimal with the fewest digits that reads back as a given magnitude, and of those the one
nearest to it. Every quotient that rounds to the magnitude lies between the midpoints to its two
neighbours, which belong to the interval exactly when the significand is even. For each number of
digits, the two points of the decimal grid around the value are tried; the coarsest grid with a
point inside wins.
-/

namespace QueryWeave

/-- A decimal: `digits * 10 ^ exponent`. -/
structure Decimal where
  digits : Nat
  exponent : Int
  deriving Repr, DecidableEq

namespace Decimal

/-! ## §1 The interval that rounds to a magnitude -/

/-- A value and the ends of its rounding interval, over one denominator. All four are whole numbers,
so that comparisons are exact. -/
structure Interval where
  low : Nat
  value : Nat
  high : Nat
  denominator : Nat
  closed : Bool
  deriving Repr, DecidableEq

/-- The interval of a finite magnitude that is not zero. -/
def intervalOf (magnitude : Nat) : Interval :=
  let m := significandOf magnitude
  let e := exponentOf magnitude - 2
  -- Below a power of two the neighbours lie twice as close
  let below := if magnitude % leadingBit = 0 && leadingBit < magnitude then 1 else 2
  { low := (4 * m - below) * powerAbove e
    value := 4 * m * powerAbove e
    high := (4 * m + 2) * powerAbove e
    denominator := powerBelow e
    closed := m % 2 = 0 }

/-- `10 ^ k` over `10 ^ -k`, as a factor for each side of a comparison. -/
def tenAbove (k : Int) : Nat := Nat.pow 10 k.toNat

def tenBelow (k : Int) : Nat := Nat.pow 10 (-k).toNat

/-- Whether the decimal `digits * 10 ^ k` lies in the interval. -/
def Interval.holds (i : Interval) (digits : Nat) (k : Int) : Bool :=
  let point := digits * tenAbove k * i.denominator
  let low := i.low * tenBelow k
  let high := i.high * tenBelow k
  if i.closed then low ≤ point && point ≤ high else low < point && point < high

/-! ## §2 Search -/

def digitCount (n : Nat) : Nat :=
  (Nat.toDigits 10 n).length

/-- The exponent of the leading decimal digit of a positive quotient. -/
def leadingExponent (num den : Nat) : Int :=
  if den ≤ num then (digitCount (num / den) : Int) - 1
  else -(digitCount ((den - 1) / num) : Int)

/-- The point on the grid of `n` digits that lies in the interval and is nearest to the value. Only
the two points around the value can be: any other is further away on the same side. -/
def onGrid (i : Interval) (lead : Int) (n : Nat) : Option Decimal :=
  let k := lead - n + 1
  let scaled := i.value * tenBelow k
  let unit := i.denominator * tenAbove k
  let lower := scaled / unit
  let twice := 2 * (scaled % unit)
  match i.holds lower k, i.holds (lower + 1) k with
  | true, true =>
    if twice < unit || (twice = unit && lower % 2 = 0) then some ⟨lower, k⟩
    else some ⟨lower + 1, k⟩
  | true, false => some ⟨lower, k⟩
  | false, true => some ⟨lower + 1, k⟩
  | false, false => none

/-- Ten on a grid is one on the next coarser grid. No other trailing zero survives the search,
since the coarser grid would have won. -/
def carryTen (d : Decimal) : Decimal :=
  if d.digits = 10 then ⟨1, d.exponent + 1⟩ else d

/-- The shortest decimal of a finite magnitude. Seventeen digits always suffice, so that the last
case never arises. -/
def shortest (magnitude : Nat) : Decimal :=
  if magnitude = 0 then ⟨0, 0⟩
  else
    let i := intervalOf magnitude
    let lead := leadingExponent i.value i.denominator
    match (List.range 17).findSome? fun n => onGrid i lead (n + 1) with
    | some d => carryTen d
    | none => ⟨0, 0⟩

end Decimal

end QueryWeave
