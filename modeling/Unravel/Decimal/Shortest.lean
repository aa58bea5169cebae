import Unravel.Double

/-! The shortest decimal of a double: the fewest digits that round back to it, and of those the nearest.
   Candidates are compared in exact integer arithmetic on half units of 2^-1075. -/
namespace Unravel

-- powers are those of the core library, whatever else is in scope
attribute [local instance (2000)] instPowNat

/-- The number `coefficient * 10 ^ exponent`. -/
structure Decimal where
  coefficient : Nat
  exponent : Int
deriving DecidableEq

namespace Decimal

/-- The digits of the coefficient, most significant first. -/
def digits (d : Decimal) : List Char := Nat.toDigits 10 d.coefficient

/-- Where the decimal point stands: the value is `0.digits * 10 ^ point`. -/
def point (d : Decimal) : Int := d.digits.length + d.exponent

/-- Trailing zeros move into the exponent; the first argument bounds how many. -/
def strip : Nat → Decimal → Decimal
  | 0, d => d
  | fuel + 1, d =>
    if d.coefficient % 10 = 0 ∧ d.coefficient ≠ 0 then strip fuel ⟨d.coefficient / 10, d.exponent + 1⟩ else d

/-- The number of zeros between the point and the first digit of `num / den`, at most the first argument. -/
def leadingZeros : Nat → Nat → Nat → Nat
  | 0, _, _ => 0
  | fuel + 1, num, den => if den ≤ num * 10 then 0 else leadingZeros fuel (num * 10) den + 1

/-- The `n` with `10 ^ (n-1) ≤ num / den < 10 ^ n`. -/
def magnitude (num den : Nat) : Int :=
  if den ≤ num then (Nat.toDigits 10 (num / den)).length else -(leadingZeros 400 num den : Int)

/-- The half units that round to one rank, together with those of the rank itself. -/
structure Basin where
  low : Nat
  middle : Nat
  high : Nat
  closed : Bool

/-- Between the midpoints to the two neighbours; the midpoints belong to even ranks. -/
def Basin.ofRank (rank : Nat) : Basin where
  low := Double.rankUnits (rank - 1) + Double.rankUnits rank
  middle := 2 * Double.rankUnits rank
  high := Double.rankUnits rank + Double.rankUnits (rank + 1)
  closed := rank % 2 == 0

/-- Whether `coefficient * up / down` lies in the basin. -/
def Basin.holds (b : Basin) (up down coefficient : Nat) : Bool :=
  let x := coefficient * up * 2 ^ (1075 : Nat)
  (b.low * down < x && x < b.high * down) || (b.closed && (x == b.low * down || x == b.high * down))

/-- The nearest decimal with a given exponent that rounds to the basin's rank, if one of the two
neighbours on that grid does. -/
def Basin.onGrid? (b : Basin) (exponent : Int) : Option Decimal :=
  let up := 10 ^ exponent.toNat
  let down := 10 ^ (-exponent).toNat
  let scaled := b.middle * down
  let step := up * 2 ^ (1075 : Nat)
  let floor := scaled / step
  let rest := scaled % step
  let nearer := if step < 2 * rest ∨ (step = 2 * rest ∧ floor % 2 = 1) then floor + 1 else floor
  let other := if nearer = floor then floor + 1 else floor
  if b.holds up down nearer then some ⟨nearer, exponent⟩
  else if b.holds up down other then some ⟨other, exponent⟩
  else none

/-- Tries ever finer grids; seventeen digits always suffice. -/
def Basin.search (b : Basin) (magnitude : Int) : Nat → Nat → Decimal
  | 0, tried => ⟨b.middle * 10 ^ (tried - magnitude).toNat / (10 ^ (magnitude - tried).toNat * 2 ^ (1075 : Nat)),
      magnitude - tried⟩
  | fuel + 1, tried => (b.onGrid? (magnitude - (tried + 1))).getD (b.search magnitude fuel (tried + 1))

/-- The shortest decimal of a finite non-zero rank, without trailing zeros. -/
def shortest (rank : Nat) : Decimal :=
  let b := Basin.ofRank rank
  strip 20 (b.search (magnitude b.middle (2 ^ (1075 : Nat))) 17 0)

end Decimal

end Unravel
