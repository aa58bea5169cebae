import Unravel.Text
import Unravel.Decimal.Shortest

/-! How numbers are written. A style fixes which exponents are written positionally and the spelling of
   everything that is not a digit; the digits are those of the shortest decimal. -/
namespace Unravel

-- powers are those of the core library, whatever else is in scope
attribute [local instance (2000)] instPowNat

structure NumberStyle where
  /-- Positional from this point (exclusive) ... -/
  above : Int
  /-- ... to this point (inclusive). -/
  upTo : Int
  /-- Follows a whole number written positionally. -/
  wholeMark : Text
  /-- Least number of digits of an exponent. -/
  exponentWidth : Nat
  /-- Whether a negative zero shows its sign. -/
  signedZero : Bool
  nanText : Text
  infinityText : Text

namespace NumberStyle

/-- Numbers as the script language prints them. -/
def script : NumberStyle where
  above := -6
  upTo := 21
  wholeMark := []
  exponentWidth := 1
  signedZero := false
  nanText := "NaN"
  infinityText := "Infinity"

/-- Numbers inside messages, traces and metadata: a point or an exponent always shows. -/
def message : NumberStyle where
  above := -4
  upTo := 16
  wholeMark := ".0"
  exponentWidth := 2
  signedZero := true
  nanText := "nan"
  infinityText := "inf"

def exponentText (style : NumberStyle) (exponent : Int) : Text :=
  let digits := Text.ofNat exponent.natAbs
  "e" ++ (if exponent < 0 then "-" else "+" : Text)
    ++ List.replicate (style.exponentWidth - digits.length) (CodePoint.ofChar '0') ++ digits

/-- A positive decimal. -/
def decimalText (style : NumberStyle) (d : Decimal) : Text :=
  let digits : Text := d.digits.map CodePoint.ofChar
  let point := d.point
  let zeros (n : Int) : Text := List.replicate n.toNat (CodePoint.ofChar '0')
  if style.above < point ∧ point ≤ style.upTo then
    if digits.length ≤ point then digits ++ zeros (point - digits.length) ++ style.wholeMark
    else if 0 < point then digits.take point.toNat ++ "." ++ digits.drop point.toNat
    else "0." ++ zeros (-point) ++ digits
  else
    let fraction : Text := if digits.length = 1 then [] else "." ++ digits.drop 1
    digits.take 1 ++ fraction ++ style.exponentText (point - 1)

def text (style : NumberStyle) : Double → Text
  | .nan => style.nanText
  | .signed negative rank =>
    let sign : Text := if negative then "-" else []
    if rank.val = 0 then (if style.signedZero then sign else []) ++ "0" ++ style.wholeMark
    else if rank.val = Double.infinityRank then sign ++ style.infinityText
    else sign ++ style.decimalText (.shortest rank.val)

end NumberStyle

/-- Fixed notation with three places, the last rounded half to even. -/
def Double.threePlaces (x : Double) : Text :=
  let sign : Text := if x.isNegative then "-" else []
  if x.isNaN then "nan"
  else if x.isInfinite then sign ++ "inf"
  else
    let thousandths := divRound (x.units.natAbs * 1000) (2 ^ (1074 : Nat))
    let fraction := Text.ofNat (thousandths % 1000)
    sign ++ Text.ofNat (thousandths / 1000) ++ "."
      ++ List.replicate (3 - fraction.length) (CodePoint.ofChar '0') ++ fraction

end Unravel
