import Unravel.Operator
import Unravel.Value.Convert
import Unravel.Double.Elementary

/-! Operators on values. -/
namespace Unravel.Value

/-- The relational comparison; `none` when a side is not a number. -/
def lessThan (l r : Value) : Outcome (Option Bool) := do
  match ← l.toPrimitive, ← r.toPrimitive with
  | .string s, .string t => return some (s.isLess t)
  | a, b =>
    let x ← a.toNumber
    let y ← b.toNumber
    return if x.isNaN || y.isNaN then none else some (x.less y)

/-- `===` on values of one type. Arrays have an identity that is not modelled. -/
def sameType : Value → Value → Outcome Bool
  | .array _, .array _ => .error .arrayIdentity
  | .undefined, .undefined => .ok true
  | .boolean a, .boolean b => .ok (a == b)
  | .string s, .string t => .ok (s == t)
  | .number x, .number y => .ok (x.same y)
  | _, _ => .ok false

def strictEquals (l r : Value) : Outcome Bool := do
  if (← l.typeName) == (← r.typeName) then sameType l r else return false

/-- How many conversions a value can go through in a loose comparison. -/
def conversions : Value → Nat
  | .boolean _ | .array _ => 1
  | .undefined | .null | .number _ | .string _ => 0

/-- Values of one type compare strictly, and undefined equals nothing else. Otherwise one side is converted and the comparison
starts again, booleans before arrays and the left side before the right one; a number and a text compare as numbers. -/
def looseEquals (l r : Value) : Outcome Bool := do
  if (← l.typeName) == (← r.typeName) then strictEquals l r
  else match l, r with
    | .undefined, _ | _, .undefined => return false
    | .boolean b, r => looseEquals (.number (← (Value.boolean b).toNumber)) r
    | l, .boolean b => looseEquals l (.number (← (Value.boolean b).toNumber))
    | .array items, r => looseEquals (.string (← (Value.array items).toText)) r
    | l, .array items => looseEquals l (.string (← (Value.array items).toText))
    | l, r =>
      let x ← l.toNumber
      return x.same (← r.toNumber)
termination_by l.conversions + r.conversions
decreasing_by all_goals simp only [conversions]; omega

def concatOrAdd (l r : Value) : Outcome Value := do
  match ← l.toPrimitive, ← r.toPrimitive with
  | .string s, b => return .string (s ++ (← b.toText))
  | a, .string t => return .string ((← a.toText) ++ t)
  | a, b => return .number ((← a.toNumber).add (← b.toNumber))

def arithmetic (f : Double → Double → Double) (l r : Value) : Outcome Value := do
  let x ← l.toNumber
  return .number (f x (← r.toNumber))

def compare (wanted : Bool) (l r : Value) : Outcome Value := do
  return .boolean ((← lessThan l r) == some wanted)

def ofWord (w : BitVec 32) : Value := .number (.ofInt w.toInt)

def bitwise (f : BitVec 32 → BitVec 32 → BitVec 32) (l r : Value) : Outcome Value := do
  let x ← l.toWord
  return ofWord (f x (← r.toWord))

/-- The low five bits of a shift count. -/
def shiftCount (w : BitVec 32) : Nat := w.toNat % 32

def binary (op : BinaryOp) (l r : Value) : Outcome Value :=
  match op with
  | .add => concatOrAdd l r
  | .sub => arithmetic .sub l r
  | .mul => arithmetic .mul l r
  | .div => arithmetic .div l r
  | .rem => arithmetic .rem l r
  | .pow => arithmetic .pow l r
  | .less => compare true l r
  | .greater => compare true r l
  | .lessEq => compare false r l
  | .greaterEq => compare false l r
  | .looseEq => do return .boolean (← looseEquals l r)
  | .looseNe => do return .boolean (!(← looseEquals l r))
  | .strictEq => do return .boolean (← strictEquals l r)
  | .strictNe => do return .boolean (!(← strictEquals l r))
  | .bitAnd => bitwise (· &&& ·) l r
  | .bitOr => bitwise (· ||| ·) l r
  | .bitXor => bitwise (· ^^^ ·) l r
  | .shiftLeft => bitwise (fun x y => x <<< shiftCount y) l r
  | .shiftRight => bitwise (fun x y => x.sshiftRight (shiftCount y)) l r
  | .shiftRightZero => do
    let x ← l.toWord
    let y ← r.toWord
    return .number (.ofNat (x >>> shiftCount y).toNat)
  | .logicalAnd | .logicalOr | .nullish | .membership | .instanceOf | .other _ =>
    .error (.unknownOperator "binary" op.symbol)

def unary (op : UnaryOp) (v : Value) : Outcome Value :=
  match op with
  | .minus => do return .number (← v.toNumber).neg
  | .plus => do return .number (← v.toNumber)
  | .not => .ok (.boolean !v.toBoolean)
  | .bitNot => do return ofWord (~~~(← v.toWord))
  | .typeOf => do return .string (← v.typeName)
  | .void => .ok .undefined
  | .delete | .other _ => .error (.unknownOperator "unary" op.symbol)

end Unravel.Value
