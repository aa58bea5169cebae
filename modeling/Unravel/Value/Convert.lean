import Unravel.Fault
import Unravel.Decimal.Numeral

/-! Conversions between values. -/
namespace Unravel

/-- The value of an unsigned digit string in a base, infinite beyond the range of doubles. A text longer
than any finite number that the reader refuses counts as infinite too. -/
def digitsToNumber (digits : Text) (base : Nat) : Outcome Double :=
  if digits.isEmpty then .error .noDigits
  else
    let significant := digits.dropWhile (fun c => c == CodePoint.ofChar '0')
    if significant.isEmpty then .ok (.zero false)
    else match Numeral.readInteger? base significant with
      | some n => if (Double.ofInt n).isInfinite then .ok (.infinity false) else .ok (.ofInt n)
      | none => if 400 < significant.length then .ok (.infinity false) else .error (.invalidDigits base significant)

/-- A whole number as a double; beyond the range of doubles this fails. -/
def Double.ofInteger (n : Int) : Outcome Double :=
  if (Double.ofInt n).isInfinite then .error .integerTooLarge else .ok (.ofInt n)

/-- The base of a `0x`, `0o` or `0b` numeral and its digits. -/
def radixLiteral? : Text → Option (Nat × Text)
  | zero :: mark :: digits =>
    if zero ≠ '0' ∨ digits.isEmpty then none
    else if (mark = 'x' ∨ mark = 'X') ∧ digits.all CodePoint.isHexDigit then some (16, digits)
    else if (mark = 'o' ∨ mark = 'O') ∧ digits.all CodePoint.isOctalDigit then some (8, digits)
    else if (mark = 'b' ∨ mark = 'B') ∧ digits.all (CodePoint.isBetween · '0' '1') then some (2, digits)
    else none
  | _ => none

def stringToNumber (t : Text) : Outcome Double :=
  let body := t.trim CodePoint.isScriptBlank
  if body.isEmpty then .ok (.zero false)
  else match radixLiteral? body with
    | some (base, digits) => digitsToNumber digits base
    | none =>
      match Numeral.readDecimal? body with
      | some (x, []) => .ok x
      | _ => .ok .nan

namespace Value

/-- The `typeof` word. -/
def typeName : Value → Outcome Text
  | .undefined => .ok "undefined"
  | .boolean _ => .ok "boolean"
  | .string _ => .ok "string"
  | .number _ => .ok "number"
  | .array _ => .ok "object"
  | .null => .error (.outsideAlgebra .null)

def toBoolean : Value → Bool
  | .undefined => false
  | .boolean b => b
  | .string t => !t.isEmpty
  | .number x => !(x.isZero || x.isNaN)
  | .array _ | .null => true

mutual
def toText : Value → Outcome Text
  | .undefined => .ok "undefined"
  | .boolean b => .ok (if b then "true" else "false")
  | .string t => .ok t
  | .number x => .ok (NumberStyle.script.text x)
  | .array items => do return Text.join "," (← itemTexts items)
  | .null => .error (.notConvertible .null "a string")

/-- The texts of array items; an undefined item is empty. -/
def itemTexts : List Value → Outcome (List Text)
  | [] => .ok []
  | .undefined :: rest => do return [] :: (← itemTexts rest)
  | v :: rest => do
    let head ← toText v
    return head :: (← itemTexts rest)
end

def toNumber : Value → Outcome Double
  | .undefined => .ok .nan
  | .boolean b => .ok (if b then .one else .zero false)
  | .number x => .ok x
  | .string t => stringToNumber t
  | .array items => do stringToNumber (← (Value.array items).toText)
  | .null => .error (.notConvertible .null "a number")

/-- Arrays become text, other values stay. -/
def toPrimitive : Value → Outcome Value
  | .array items => do return .string (← (Value.array items).toText)
  | v => .ok v

end Value

/-- The 32-bit word congruent to the integer part; zero for NaN and the infinities. -/
def Double.toWord (x : Double) : BitVec 32 :=
  if x.isFinite then BitVec.ofInt 32 x.truncate else 0

namespace Value

def toWord (v : Value) : Outcome (BitVec 32) := do return (← v.toNumber).toWord

def toInt32 (v : Value) : Outcome Int := do return (← v.toWord).toInt

def toUint32 (v : Value) : Outcome Nat := do return (← v.toWord).toNat

end Value

/-- A digit of a base as `parseInt` sees it. The Kelvin sign counts as the letter whose lower case it has. -/
def isRadixDigit (base : Nat) (c : CodePoint) : Bool :=
  (match c.digitValue? with | some v => decide (v < base) | none => false) || (c.toNat == 0x212a && decide (20 < base))

/-- The base and the text left after an optional `0x`. -/
def parseIntBase? (radix : Int) (t : Text) : Option (Nat × Text) :=
  let marked := Text.startsWith t "0x" || Text.startsWith t "0X"
  if radix = 0 then some (if marked then (16, t.drop 2) else (10, t))
  else if radix < 2 ∨ 36 < radix then none
  else if radix = 16 ∧ marked then some (16, t.drop 2)
  else some (radix.toNat, t)

def parseInt (v radix : Value) : Outcome Double := do
  let (negative, body) := Numeral.readSign ((← v.toText).trimLeft CodePoint.isScriptBlank)
  let radix ← radix.toInt32
  match parseIntBase? radix body with
  | none => return .nan
  | some (base, rest) =>
    let digits := rest.takeWhile (isRadixDigit base)
    if digits.isEmpty then return .nan
    let x ← digitsToNumber digits base
    return if negative then x.neg else x

def parseFloat (v : Value) : Outcome Double := do
  match Numeral.readDecimal? ((← v.toText).trimLeft CodePoint.isScriptBlank) with
  | some (x, _) => return x
  | none => return .nan

end Unravel
