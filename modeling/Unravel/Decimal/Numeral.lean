import Unravel.Text.Class
import Unravel.Double

/-! Reading numerals. Decimal numerals may use the digits of any script; whole numerals in a base follow
   the stricter rules of `readInteger?`. -/
namespace Unravel

-- powers are those of the core library, whatever else is in scope
attribute [local instance (2000)] instPowNat

namespace Double

/-- The double nearest to `coefficient * 10 ^ exponent`. Exponents far outside the range of doubles are
decided without computing the power. -/
def ofDecimal (negative : Bool) (coefficient : Nat) (exponent : Int) : Double :=
  let digits : Int := (Nat.toDigits 10 coefficient).length
  if coefficient = 0 then zero negative
  else if 400 < exponent + digits then infinity negative
  else if exponent + digits < -400 then zero negative
  else ofRatio negative (coefficient * 10 ^ exponent.toNat) (10 ^ (-exponent).toNat)

end Double

namespace Numeral

/-- The value of a run of decimal digits of any script. -/
def digitsValue (t : Text) : Nat := t.foldl (fun n c => n * 10 + c.decimalValue?.getD 0) 0

def readSign : Text → Bool × Text
  | c :: rest => if c = '-' then (true, rest) else if c = '+' then (false, rest) else (false, c :: rest)
  | [] => (false, [])

/-- An optional exponent; nothing is consumed unless at least one digit follows the mark. -/
def readExponent (t : Text) : Int × Text :=
  match t with
  | c :: rest =>
    if c = 'e' ∨ c = 'E' then
      let (negative, body) := readSign rest
      let digits := body.takeWhile CodePoint.isDecimal
      if digits.isEmpty then (0, t)
      else
        let n : Int := digitsValue digits
        (if negative then -n else n, body.dropWhile CodePoint.isDecimal)
    else (0, t)
  | [] => (0, t)

/-- The digits after a point, and what follows them. A point without digits counts only after whole digits. -/
def readFraction (afterDigits : Bool) (t : Text) : Text × Text :=
  match t with
  | c :: rest =>
    let digits := rest.takeWhile CodePoint.isDecimal
    if c = '.' ∧ (afterDigits || !digits.isEmpty) then (digits, rest.dropWhile CodePoint.isDecimal) else ([], t)
  | [] => ([], t)

/-- The longest unsigned decimal numeral at the start of a text, as coefficient and exponent. -/
def readUnsigned? (t : Text) : Option (Nat × Int × Text) :=
  let whole := t.takeWhile CodePoint.isDecimal
  let (fraction, rest) := readFraction (!whole.isEmpty) (t.dropWhile CodePoint.isDecimal)
  if whole.isEmpty && fraction.isEmpty then none
  else
    let (exponent, rest) := readExponent rest
    some (digitsValue (whole ++ fraction), exponent - fraction.length, rest)

/-- The longest signed decimal numeral, or signed `Infinity`, at the start of a text. -/
def readDecimal? (t : Text) : Option (Double × Text) :=
  let (negative, body) := readSign t
  if Text.startsWith body "Infinity" then some (.infinity negative, body.drop 8)
  else (readUnsigned? body).map fun (coefficient, exponent, rest) =>
    (.ofDecimal negative coefficient exponent, rest)

def lowerAscii (t : Text) : Text :=
  t.map fun c => if c.isUpper then (CodePoint.ofNat? (c.toNat + 32)).getD c else c

/-- A whole text as a floating-point number: blanks around it are dropped, and the words for infinity and
NaN are taken in any case. -/
def readDouble? (t : Text) : Option Double :=
  let (negative, body) := readSign (t.trim CodePoint.isBlank)
  let word := lowerAscii body
  if word = ("inf" : Text) ∨ word = ("infinity" : Text) then some (.infinity negative)
  else if word = ("nan" : Text) then some .nan
  else match readUnsigned? body with
    | some (coefficient, exponent, []) => some (.ofDecimal negative coefficient exponent)
    | _ => none

/-- The value of a digit in a base, decimal digits of any script included. -/
def radixValue? (base : Nat) (c : CodePoint) : Option Nat :=
  match (c.digitValue?.or c.decimalValue?) with
  | some v => if v < base then some v else none
  | none => none

/-- Digits of a base with single underscores between them, most significant first. -/
def readDigits? (base : Nat) : Text → Option (List Nat)
  | [] => none
  | [c] => (radixValue? base c).map ([·])
  | c :: d :: rest =>
    match radixValue? base c with
    | none => none
    | some v =>
      if d = '_' then (readDigits? base rest).map (v :: ·) else (readDigits? base (d :: rest)).map (v :: ·)

/-- The mark that may precede the digits of a base. -/
def radixMark? (base : Nat) : Option Char :=
  if base = 16 then some 'x' else if base = 8 then some 'o' else if base = 2 then some 'b' else none

/-- Drops `0x`, `0o` or `0b` where it fits the base, and one underscore after it. -/
def dropRadixMark (base : Nat) (t : Text) : Text :=
  match radixMark? base, t with
  | some mark, zero :: c :: rest =>
    if zero = '0' ∧ lowerAscii [c] = [CodePoint.ofChar mark] then
      match rest with
      | u :: more => if u = '_' then more else rest
      | [] => rest
    else t
  | _, _ => t

/-- Most digits read in a base that is not a power of two. -/
def digitLimit : Nat := 4300

/-- A signed whole numeral in a base from 2 to 36, blanks around it dropped. -/
def readInteger? (base : Nat) (t : Text) : Option Int :=
  let (negative, body) := readSign (t.trim CodePoint.isBlank)
  match readDigits? base (dropRadixMark base body) with
  | none => none
  | some digits =>
    if digitLimit < digits.length ∧ base ∉ [2, 4, 8, 16, 32] then none
    else
      let n : Nat := digits.foldl (fun n v => n * base + v) 0
      some (if negative then -(n : Int) else n)

end Numeral

end Unravel
