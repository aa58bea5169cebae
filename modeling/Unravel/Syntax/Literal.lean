import Unravel.Syntax.Tree
import Unravel.Fault

/-! Trees that stand for values, and the values that they stand for. -/
namespace Unravel

namespace Shape

def identifier (name : Text) : Shape := .node () (.identifier name)

end Shape

namespace Tree

variable {α : Type}

/-- Whether a tree is fully literal: a leaf that denotes a value, or an array of such trees. -/
def isLiteral (t : Tree α) : Bool :=
  t.fold fun _ f => match f with
    | .number _ | .string _ | .boolean _ | .undefined => true
    | .array elements => elements.all id
    | _ => false

/-- The value that a literal tree denotes. -/
def literalValue (t : Tree α) : Outcome Value :=
  t.fold fun _ f => match f with
    | .number x => .ok (.number x)
    | .string s => .ok (.string s)
    | .boolean b => .ok (.boolean b)
    | .undefined => .ok .undefined
    | .array elements => do return .array (← elements.mapM id)
    | f => .error (.notLiteral f.kind)

end Tree

namespace Value

mutual
/-- The literal tree of a value; there is none for null. -/
def toShape : Value → Outcome Shape
  | .undefined => .ok (.node () .undefined)
  | .boolean b => .ok (.node () (.boolean b))
  | .number x => .ok (.node () (.number x))
  | .string t => .ok (.node () (.string t))
  | .array items => do return .node () (.array (← toShapes items))
  | .null => .error (.notBuildable .null)

def toShapes : List Value → Outcome (List Shape)
  | [] => .ok []
  | v :: rest => do
    let head ← toShape v
    return head :: (← toShapes rest)
end

end Value

end Unravel
