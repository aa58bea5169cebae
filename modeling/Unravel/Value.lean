import Unravel.Text.Quoted
import Unravel.Decimal.Style

/-! Values of the constrained evaluator. `null` is not part of the algebra: it can be handed in, and the
   conversions refuse it. -/
namespace Unravel

inductive Value where
  | undefined
  | null
  | boolean (b : Bool)
  | number (x : Double)
  | string (t : Text)
  | array (items : List Value)

instance : Inhabited Value := ⟨.undefined⟩

namespace Value

mutual
/-- Whether a value, with everything inside it, belongs to the algebra. -/
def isModelled : Value → Bool
  | .null => false
  | .array items => areModelled items
  | .undefined | .boolean _ | .number _ | .string _ => true

def areModelled : List Value → Bool
  | [] => true
  | v :: rest => isModelled v && areModelled rest
end

mutual
/-- The form of a value inside messages. -/
def shown : Value → Text
  | .undefined => "undefined"
  | .null => "None"
  | .boolean b => if b then "True" else "False"
  | .number x => NumberStyle.message.text x
  | .string t => t.shown
  | .array [] => "()"
  | .array [v] => "(" ++ shown v ++ ",)"
  | .array (v :: rest) => "(" ++ shown v ++ shownRest rest

/-- The items after the first, each behind a comma, and the closing bracket. -/
def shownRest : List Value → Text
  | [] => ")"
  | v :: rest => ", " ++ shown v ++ shownRest rest
end

end Value

end Unravel
