/-! Binary64 numbers as exact data. The magnitudes 0, 2^-1074, ..., infinity are numbered in increasing
   order, and a number other than NaN is a sign and the rank of its magnitude. Every finite magnitude is a
   whole number of units of 2^-1074, so arithmetic is integer arithmetic on units followed by one rounding
   to the nearest rank, ties to even. There is one NaN. -/
namespace Unravel

-- powers are those of the core library, whatever else is in scope
attribute [local instance (2000)] instPowNat

inductive Double where
  | nan
  | signed (negative : Bool) (rank : Fin (0x7ff0000000000000 + 1))
deriving DecidableEq

namespace Double

def infinityRank : Nat := 0x7ff0000000000000

/-- Ranks beyond infinity are infinity. -/
def ofRank (negative : Bool) (rank : Nat) : Double :=
  .signed negative ⟨min rank 0x7ff0000000000000, by omega⟩

def zero (negative : Bool) : Double := ofRank negative 0

def infinity (negative : Bool) : Double := ofRank negative infinityRank

instance : Inhabited Double := ⟨zero false⟩

/-- The 64-bit pattern: the sign bit above the rank. -/
def toBits : Double → Nat
  | .nan => 0x7ff8000000000000
  | .signed negative rank => (if negative then 2 ^ (63 : Nat) else 0) + rank.val

def ofBits (bits : Nat) : Double :=
  if infinityRank < bits % 2 ^ (63 : Nat) then .nan else ofRank (2 ^ (63 : Nat) ≤ bits) (bits % 2 ^ (63 : Nat))

/-- The number of units of 2^-1074 in the magnitude of a finite rank. -/
def rankUnits (rank : Nat) : Nat :=
  if rank < 2 ^ (52 : Nat) then rank else (2 ^ (52 : Nat) + rank % 2 ^ (52 : Nat)) * 2 ^ (rank / 2 ^ (52 : Nat) - 1)

/-- Quotient rounded to nearest, ties to even. -/
def divRound (n d : Nat) : Nat :=
  let q := n / d
  let r := n % d
  if d < 2 * r ∨ (2 * r = d ∧ q % 2 = 1) then q + 1 else q

/-- The rank nearest to `num / den` units. Between 2^(52+k) and 2^(53+k) units the magnitudes lie 2^k
units apart, and their ranks follow `k * 2^52`. -/
def nearestRank (num den : Nat) : Nat :=
  let k := Nat.log2 (num / den) - 52
  k * 2 ^ (52 : Nat) + divRound num (den * 2 ^ k)

def ofUnits (negative : Bool) (num den : Nat) : Double := ofRank negative (nearestRank num den)

/-- The double nearest to a quotient of naturals. -/
def ofRatio (negative : Bool) (num den : Nat) : Double := ofUnits negative (num * 2 ^ (1074 : Nat)) den

def ofInt (n : Int) : Double := ofRatio (n < 0) n.natAbs 1

def ofNat (n : Nat) : Double := ofRatio false n 1

def one : Double := ofNat 1

def isNaN : Double → Bool
  | .nan => true
  | .signed .. => false

def isInfinite : Double → Bool
  | .nan => false
  | .signed _ rank => rank.val == infinityRank

def isFinite : Double → Bool
  | .nan => false
  | .signed _ rank => rank.val != infinityRank

def isZero : Double → Bool
  | .nan => false
  | .signed _ rank => rank.val == 0

/-- The sign bit; NaN counts as positive. -/
def isNegative : Double → Bool
  | .nan => false
  | .signed negative _ => negative

/-- Units of a finite number with its sign. -/
def units : Double → Int
  | .nan => 0
  | .signed negative rank => if negative then -(rankUnits rank.val : Int) else rankUnits rank.val

/-- Position in the numerical order; both zeros are at 0. -/
def order : Double → Int
  | .nan => 0
  | .signed negative rank => if negative then -(rank.val : Int) else rank.val

def less (x y : Double) : Bool := !x.isNaN && !y.isNaN && decide (x.order < y.order)

/-- Numerical equality: NaN equals nothing, the zeros equal one another. -/
def same (x y : Double) : Bool := !x.isNaN && !y.isNaN && x.order == y.order

def withSign (negative : Bool) : Double → Double
  | .nan => .nan
  | .signed _ rank => .signed negative rank

def neg : Double → Double
  | .nan => .nan
  | .signed negative rank => .signed (!negative) rank

def abs (x : Double) : Double := x.withSign false

def add (x y : Double) : Double :=
  if x.isNaN || y.isNaN then .nan
  else if x.isInfinite then (if y.isInfinite && x.isNegative != y.isNegative then .nan else x)
  else if y.isInfinite then y
  else
    let sum := x.units + y.units
    if sum = 0 then zero (x.isNegative && y.isNegative) else ofUnits (sum < 0) sum.natAbs 1

def sub (x y : Double) : Double := add x y.neg

def mul (x y : Double) : Double :=
  let negative := x.isNegative != y.isNegative
  if x.isNaN || y.isNaN then .nan
  else if x.isInfinite || y.isInfinite then
    if x.isZero || y.isZero then .nan else infinity negative
  else ofUnits negative (x.units.natAbs * y.units.natAbs) (2 ^ (1074 : Nat))

/-- Division; a zero divisor gives an infinity, or NaN under a zero dividend. -/
def div (x y : Double) : Double :=
  let negative := x.isNegative != y.isNegative
  if x.isNaN || y.isNaN then .nan
  else if y.isZero then (if x.isZero then .nan else infinity negative)
  else if x.isInfinite then (if y.isInfinite then .nan else infinity negative)
  else if y.isInfinite then zero negative
  else ofUnits negative (x.units.natAbs * 2 ^ (1074 : Nat)) y.units.natAbs

/-- The exact remainder of a division that truncates; it has the sign of the dividend. -/
def rem (x y : Double) : Double :=
  if x.isNaN || y.isNaN || x.isInfinite || y.isZero then .nan
  else if y.isInfinite || x.isZero then x
  else ofUnits x.isNegative (x.units.natAbs % y.units.natAbs) 1

/-- The integer part of a finite number. -/
def truncate (x : Double) : Int := x.units.tdiv (2 ^ (1074 : Nat))

def floorInt (x : Double) : Int := x.units.fdiv (2 ^ (1074 : Nat))

def ceilInt (x : Double) : Int := -((-x.units).fdiv (2 ^ (1074 : Nat)))

def isInteger (x : Double) : Bool := x.isFinite && x.units % 2 ^ (1074 : Nat) == 0

def isOddInteger (x : Double) : Bool := x.isInteger && x.truncate % 2 == 1

/-- An integral value that keeps the sign of `x` at zero; zeros, infinities and NaN stay. -/
def integral (f : Double → Int) (x : Double) : Double :=
  if x.isFinite && !x.isZero then
    let n := f x
    if n = 0 then zero x.isNegative else ofInt n
  else x

def floor : Double → Double := integral floorInt

def ceil : Double → Double := integral ceilInt

def trunc : Double → Double := integral truncate

/-- The nearest integer, halves going up. -/
def round : Double → Double := integral fun x => (2 * x.units + 2 ^ (1074 : Nat)).fdiv (2 ^ (1075 : Nat))

/-- The nearest binary32 value, infinite from 2^128 on. Its units are 2^925 units of binary64. -/
def toSingle (x : Double) : Double :=
  if x.isFinite then
    let n := x.units.natAbs
    let k := Nat.log2 (n / 2 ^ (925 : Nat)) - 23
    let rounded := divRound n (2 ^ (925 + k)) * 2 ^ (925 + k)
    if 2 ^ (128 + 1074 : Nat) ≤ rounded then infinity x.isNegative else ofUnits x.isNegative rounded 1
  else x

theorem divPow_lt {k n : Nat} (hk : k ≠ 0) (hn : n ≠ 0) : n / 2 ^ k < n :=
  Nat.div_lt_self (Nat.pos_of_ne_zero hn) (Nat.one_lt_two_pow hk)

/-- The integer part of a `k`-th root. -/
def floorRoot (k n : Nat) : Nat :=
  if h : k = 0 ∨ n = 0 then 0
  else
    let r := 2 * floorRoot k (n / 2 ^ k)
    if (r + 1) ^ k ≤ n then r + 1 else r
termination_by n
decreasing_by exact divPow_lt (fun e => h (.inl e)) (fun e => h (.inr e))

/-- Twice a `k`-th root, an inexact root being marked by an odd number just above its integer part. -/
def stickyRoot (k n : Nat) : Nat :=
  let r := floorRoot k n
  if r ^ k = n then 2 * r else 2 * r + 1

def sqrt (x : Double) : Double :=
  if x.isNaN || x.isZero then x
  else if x.isNegative then .nan
  else if x.isInfinite then x
  else ofUnits false (stickyRoot 2 (x.units.natAbs * 2 ^ (1074 : Nat))) 2

def cbrt (x : Double) : Double :=
  if x.isFinite && !x.isZero then
    ofUnits x.isNegative (stickyRoot 3 (x.units.natAbs * 2 ^ (2148 : Nat))) 2
  else x

/-- The square root of the sum of squares. An infinity among the arguments wins over a NaN. -/
def hypot (xs : List Double) : Double :=
  if xs.any isInfinite then infinity false
  else if xs.any isNaN then .nan
  else
    let squares := (xs.map fun x => x.units.natAbs ^ (2 : Nat)).foldl (· + ·) 0
    ofUnits false (stickyRoot 2 (squares * 4)) 4

/-- Goes through numbers and keeps one of them: a number that wins against the one kept so far takes its place. A NaN ends the
search. -/
def winner (wins : Double → Double → Bool) (best : Double) : List Double → Double
  | [] => best
  | x :: rest => if x.isNaN then .nan else winner wins (if wins x best then x else best) rest

/-- Greater, or any zero against a negative one. -/
def exceeds (x best : Double) : Bool := best.less x || (x.isZero && best.isZero && best.isNegative)

/-- Less, or a negative zero against any one. -/
def undercuts (x best : Double) : Bool := x.less best || (x.isZero && best.isZero && x.isNegative)

def maximum (xs : List Double) : Double := winner exceeds (infinity true) xs

def minimum (xs : List Double) : Double := winner undercuts (infinity false) xs

end Double

end Unravel
