import Unravel.Double

/-! Elementary functions, correctly rounded. A real number is approximated by an integer `v` at a scale
   `w`, standing for `v / 2 ^ w` with an error of less than `slack` units in the last place; the working
   precision grows until the whole error interval rounds to one double. Exact results that lie halfway
   between two doubles occur only for powers, and those are computed exactly. -/
namespace Unravel.Double

-- powers are those of the core library, whatever else is in scope
attribute [local instance (2000)] instPowNat

/-- An approximation `value / 2 ^ scale`. -/
structure Scaled where
  value : Int
  scale : Int

namespace Scaled

def round (s : Scaled) : Double :=
  ofUnits (s.value < 0) (s.value.natAbs * 2 ^ (1074 - s.scale).toNat) (2 ^ (s.scale - 1074).toNat)

/-- Bound on the accumulated error of every approximation below, in units of its scale. -/
def slack : Int := 2 ^ (40 : Nat)

/-- Doubles the precision until both ends of the error interval round alike. -/
def settle (approximate : Nat → Scaled) : Nat → Nat → Double
  | 0, precision => (approximate precision).round
  | fuel + 1, precision =>
    let s := approximate precision
    let low := round { s with value := s.value - slack }
    let high := round { s with value := s.value + slack }
    if low = high then low else settle approximate fuel (2 * precision)

def shift (v places : Int) : Int :=
  if 0 ≤ places then v * 2 ^ places.toNat else v / 2 ^ (-places).toNat

def rescale (s : Scaled) (scale : Int) : Int := shift s.value (scale - s.scale)

end Scaled

def settled (approximate : Nat → Scaled) : Double := Scaled.settle approximate 6 128

/-! ### Series at a fixed scale -/

/-- Sum of `x^n / n!` from a given term on. -/
def expTail (w : Nat) (x : Int) : Nat → Nat → Int → Int
  | 0, _, _ => 0
  | fuel + 1, n, term => if term = 0 then 0 else term + expTail w x fuel (n + 1) ((term * x).tdiv (2 ^ w * (n + 1)))

/-- Sum of `step^n * term / (2n + 1)`, the powers of `step` being taken at scale `w`. -/
def oddTail (w : Nat) (step : Int) : Nat → Nat → Int → Int
  | 0, _, _ => 0
  | fuel + 1, n, term =>
    if term = 0 then 0 else term.tdiv (2 * n + 1) + oddTail w step fuel (n + 1) ((term * step).tdiv (2 ^ w))

/-- Sum of `(-x²)^n * term / ((n+1)(n+2)...)`, taking two factors at a time. -/
def circularTail (w : Nat) (square : Int) : Nat → Nat → Int → Int
  | 0, _, _ => 0
  | fuel + 1, n, term =>
    if term = 0 then 0
    else term - circularTail w square fuel (n + 2) ((term * square).tdiv (2 ^ w * ((n + 1) * (n + 2))))

def sinSeries (w : Nat) (x : Int) : Int := circularTail w (x * x / 2 ^ w) w 1 x

def cosSeries (w : Nat) (x : Int) : Int := circularTail w (x * x / 2 ^ w) w 0 (2 ^ w)

def atanhSeries (w : Nat) (z : Int) : Int := oddTail w (z * z / 2 ^ w) (2 * w) 0 z

def atanSeries (w : Nat) (z : Int) : Int := oddTail w (-(z * z / 2 ^ w)) (2 * w) 0 z

def ln2 (w : Nat) : Int := 2 * atanhSeries w (2 ^ w / 3)

/-- Machin's formula. -/
def pi (w : Nat) : Int := 16 * atanSeries w (2 ^ w / 5) - 4 * atanSeries w (2 ^ w / 239)

/-- Logarithm of a positive quotient. -/
def logRatio (w num den : Nat) : Int :=
  let k : Int := (Nat.log2 num : Int) - Nat.log2 den
  let n : Int := num * 2 ^ (-k).toNat
  let d : Int := den * 2 ^ k.toNat
  k * ln2 w + 2 * atanhSeries w ((n - d) * 2 ^ w / (n + d))

/-- Halves an angle given by its tangent. -/
def halveTangent (w : Nat) (z : Int) : Int :=
  z * 2 ^ w / (2 ^ w + floorRoot 2 (2 ^ (2 * w) + z.natAbs ^ (2 : Nat)))

/-- Angle whose tangent is a non-negative quotient at most one. -/
def atanSmall (w num den : Nat) : Int :=
  8 * atanSeries w (halveTangent w (halveTangent w (halveTangent w (num * 2 ^ w / den : Nat))))

/-- Angle whose tangent is `num / den`, a right angle if `den` is zero. -/
def atanRatio (w num den : Nat) : Int :=
  if num ≤ den then (if den = 0 then 0 else atanSmall w num den) else pi w / 2 - atanSmall w den num

/-! ### Arguments -/

/-- A finite number at scale `w`. -/
def atScale (w : Nat) (x : Double) : Int := x.units * 2 ^ w / 2 ^ (1074 : Nat)

/-- How many bits below one the leading bit of a finite non-zero number lies. -/
def depth (x : Double) : Nat := 1075 - Nat.log2 x.units.natAbs

/-- How many bits above one it lies. -/
def height (x : Double) : Nat := Nat.log2 x.units.natAbs - 1073

/-- How close a positive quotient is to one, in bits. -/
def closeness (num den : Nat) : Nat :=
  Nat.log2 den + 1 - Nat.log2 (if num < den then den - num else num - den)

/-- Exponential of a number of moderate size given at scale `w`. -/
def expScaled (w : Nat) (x : Int) : Scaled :=
  let unit := ln2 w
  let k := (2 * x + unit) / (2 * unit)
  { value := expTail w (x - k * unit) (2 * w) 0 (2 ^ w), scale := w - k }

/-- The remainder of an angle after a whole number of right angles, and that number. -/
def reduceAngle (w : Nat) (x : Double) : Int × Int :=
  let wide := w + x.height + 8
  let quarter := pi wide / 2
  let angle := atScale wide x
  let q := (2 * angle + quarter) / (2 * quarter)
  ((angle - q * quarter) / 2 ^ (x.height + 8), q)

/-- Sine and cosine at scale `w`. -/
def sinCos (w : Nat) (x : Double) : Int × Int :=
  let (r, q) := reduceAngle w x
  let s := sinSeries w r
  let c := cosSeries w r
  match (q % 4).toNat with
  | 0 => (s, c)
  | 1 => (c, -s)
  | 2 => (-s, -c)
  | _ => (-c, s)

/-! ### Functions -/

def exp (x : Double) : Double :=
  if x.isNaN then .nan
  else if x.isZero then one
  else if x.isInfinite || 10 < x.height then (if x.isNegative then zero false else infinity false)
  else settled fun p => expScaled p (atScale p x)

def expm1 (x : Double) : Double :=
  if x.isNaN || x.isZero then x
  else if x.isInfinite || 10 < x.height then (if x.isNegative then (ofInt (-1)) else infinity false)
  else settled fun p =>
    let w := p + x.depth
    let e := expScaled w (atScale w x)
    let scale := min e.scale w
    { value := e.rescale scale - Scaled.shift 1 scale, scale }

/-- `exp x` and `exp (-x)` at one scale. -/
def expPair (w : Nat) (x : Double) : Int × Int × Int :=
  let e := expScaled w (atScale w x)
  let f := expScaled w (-atScale w x)
  let scale := min e.scale f.scale
  (e.rescale scale, f.rescale scale, scale)

def sinh (x : Double) : Double :=
  if x.isNaN || x.isZero || x.isInfinite then x
  else if 10 < x.height then infinity x.isNegative
  else settled fun p =>
    let (e, f, scale) := expPair (p + x.depth) x
    { value := e - f, scale := scale + 1 }

def cosh (x : Double) : Double :=
  if x.isNaN then .nan
  else if x.isZero then one
  else if x.isInfinite || 10 < x.height then infinity false
  else settled fun p =>
    let (e, f, scale) := expPair p x
    { value := e + f, scale := scale + 1 }

def tanh (x : Double) : Double :=
  if x.isNaN || x.isZero then x
  else if x.isInfinite || 5 < x.height then one.withSign x.isNegative
  else settled fun p =>
    let w := p + x.depth
    let (e, f, _) := expPair (w + 128) x
    { value := (e - f) * 2 ^ w / (e + f), scale := w }

/-- Logarithm of a positive quotient other than one, divided by a constant if one is given. -/
def logOf (num den : Nat) (base : Option (Nat → Int)) : Double :=
  settled fun p =>
    let w := p + closeness num den
    match base with
    | none => { value := logRatio w num den, scale := w }
    | some unit => { value := logRatio w num den * 2 ^ w / unit w, scale := w }

/-- A logarithm-like function: NaN below the pole, negative infinity at it. -/
def logLike (offset : Nat) (base : Option (Nat → Int)) (x : Double) : Double :=
  let shifted := x.units + offset * 2 ^ (1074 : Nat)
  if x.isNaN then .nan
  else if x.isInfinite then (if x.isNegative then .nan else x)
  else if shifted < 0 then .nan
  else if shifted = 0 then infinity true
  else if shifted = 2 ^ (1074 : Nat) then (if offset = 0 then zero false else x)
  else logOf shifted.natAbs (2 ^ (1074 : Nat)) base

def log : Double → Double := logLike 0 none

def log1p : Double → Double := logLike 1 none

def log2 : Double → Double := logLike 0 (some ln2)

def log10 : Double → Double := logLike 0 (some fun w => logRatio w 10 1)

def asinh (x : Double) : Double :=
  if x.isFinite && !x.isZero then
    withSign x.isNegative <| settled fun p =>
      let w := p + x.depth
      let a := (atScale w x.abs).natAbs
      { value := logRatio w (a + floorRoot 2 (a ^ (2 : Nat) + 2 ^ (2 * w))) (2 ^ w), scale := w }
  else x

def acosh (x : Double) : Double :=
  if x.isNaN || x.less one then .nan
  else if x.isInfinite then x
  else if x = one then zero false
  else settled fun p =>
    let a := (atScale p x).natAbs
    { value := logRatio p (a + floorRoot 2 (a ^ (2 : Nat) - 2 ^ (2 * p))) (2 ^ p), scale := p }

def atanh (x : Double) : Double :=
  if x.isNaN || one.less x.abs then .nan
  else if x.isZero then x
  else if x.abs = one then infinity x.isNegative
  else
    let u := x.units.natAbs
    withSign x.isNegative <| settled fun p =>
      let w := p + x.depth
      { value := logRatio w (2 ^ (1074 : Nat) + u) (2 ^ (1074 : Nat) - u), scale := w + 1 }

def sin (x : Double) : Double :=
  if x.isNaN || x.isZero then x
  else if x.isInfinite then .nan
  else settled fun p => let w := p + x.depth; { value := (sinCos w x).1, scale := w }

def cos (x : Double) : Double :=
  if x.isNaN || x.isInfinite then .nan
  else if x.isZero then one
  else settled fun p => { value := (sinCos p x).2, scale := p }

/-- The quotient of sine and cosine, which are taken far more precisely than the result. -/
def tan (x : Double) : Double :=
  if x.isNaN || x.isZero then x
  else if x.isInfinite then .nan
  else settled fun p =>
    let w := p + x.depth
    let (s, c) := sinCos (w + 256) x
    { value := if c = 0 then 0 else s * 2 ^ w / c, scale := w }

/-- The angle of a point in the upper right quadrant, taken from a straight angle if `flip`. -/
def angleOf (num den : Nat) (flip : Bool) : Double :=
  settled fun p =>
    let w := p + (Nat.log2 den + 1 - Nat.log2 num)
    let a := atanRatio w num den
    { value := if flip then pi w - a else a, scale := w }

def atan (x : Double) : Double :=
  if x.isNaN || x.isZero then x
  else withSign x.isNegative (if x.isInfinite then angleOf 1 0 false else angleOf x.units.natAbs (2 ^ (1074 : Nat)) false)

/-- The angle of the point `(x, y)`, from -π to π; the signs of zeros tell the quadrants apart. -/
def atan2 (y x : Double) : Double :=
  if x.isNaN || y.isNaN then .nan
  else withSign y.isNegative <|
    if y.isInfinite then
      if x.isInfinite then angleOf 1 1 x.isNegative else angleOf 1 0 false
    else if x.isInfinite || y.isZero then
      if x.isNegative then settled fun p => { value := pi p, scale := p } else zero false
    else angleOf y.units.natAbs x.units.natAbs x.isNegative

def asin (x : Double) : Double :=
  if x.isNaN || one.less x.abs then .nan
  else if x.isZero then x
  else withSign x.isNegative <| settled fun p =>
    let w := p + x.depth
    let a := (atScale w x.abs).natAbs
    { value := atanRatio w a (floorRoot 2 (2 ^ (2 * w) - a ^ (2 : Nat))), scale := w }

def acos (x : Double) : Double :=
  if x.isNaN || one.less x.abs then .nan
  else if x = one then zero false
  else settled fun p =>
    let above := (2 ^ (1074 : Nat) - x.units).natAbs
    let below := (2 ^ (1074 : Nat) + x.units).natAbs
    { value := 2 * (if below = 0 then pi p / 2 else atanRatio p (floorRoot 2 (above * 2 ^ (2 * p) / below)) (2 ^ p)),
      scale := p }

/-! ### Powers -/

/-- The largest power of two that divides a number, at most the first argument. -/
def twos : Nat → Nat → Nat
  | 0, _ => 0
  | fuel + 1, n => if n % 2 = 0 then twos fuel (n / 2) + 1 else 0

/-- Takes `count` exact square roots of `m * 2 ^ e`. -/
def exactRoots : Nat → Nat → Int → Option (Nat × Int)
  | 0, m, e => some (m, e)
  | count + 1, m, e =>
    let r := floorRoot 2 m
    if r * r = m ∧ e % 2 = 0 then exactRoots count r (e / 2) else none

/-- A power with a finite binary expansion short enough to be a double or halfway between two. -/
def exactPower? (x y : Double) : Option Double :=
  let u := x.units.natAbs
  let shift := twos 2100 u
  let halves := 1074 - min 1074 (twos 2100 y.units.natAbs)
  let exponent : Int := y.units.tdiv (2 ^ (1074 - halves))
  match exactRoots (min halves 64) (u / 2 ^ shift) (shift - 1074) with
  | none => none
  | some (m, e) =>
    if 64 < halves then none
    else if m = 1 then
      if 4000 < (e * exponent).natAbs then some (if 0 < e * exponent then infinity false else zero false)
      else some (Scaled.round { value := 1, scale := -(e * exponent) })
    else if 0 ≤ exponent ∧ exponent * (Nat.log2 m + 1) ≤ 128 then
      some (Scaled.round { value := (m : Int) ^ exponent.toNat, scale := -(e * exponent) })
    else none

/-- A positive finite number, not one, to a finite power, not zero. -/
def powPositive (x y : Double) : Double :=
  match exactPower? x y with
  | some r => r
  | none =>
    let logarithm (w : Nat) : Int := y.units * logRatio w x.units.natAbs (2 ^ (1074 : Nat)) / 2 ^ (1074 : Nat)
    let guess := logarithm (64 + y.height)
    if 2000 * 2 ^ (64 + y.height) < guess then infinity false
    else if guess < -2000 * 2 ^ (64 + y.height) then zero false
    else settled fun p =>
      let w := p + y.height
      expScaled w (logarithm w)

/-- `x ** y` of the script language: NaN for an infinite power of ±1. -/
def pow (x y : Double) : Double :=
  if y.isNaN then .nan
  else if y.isZero then one
  else if x.isNaN then .nan
  else
    let negative := x.isNegative && y.isOddInteger
    if x.abs = one && y.isInfinite then .nan
    else if y.isInfinite then
      (if one.less x.abs == y.isNegative then zero false else infinity false)
    else if x.isZero then (if y.isNegative then infinity negative else zero negative)
    else if x.isInfinite then (if y.isNegative then zero negative else infinity negative)
    else if x.isNegative && !y.isInteger then .nan
    else if x.abs = one then one.withSign negative
    else (powPositive x.abs y).withSign negative

end Unravel.Double
