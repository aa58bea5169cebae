import Unravel.Fold

/-! The expression that a function returns, and its folding in place. -/
namespace Unravel

namespace Node

/-- What a node stands for when it is returned, and what it gives when it is run. -/
structure Found where
  asValue : Outcome Node
  asBody : Outcome Node

def isReturn {ρ : Type} : Form ρ → Bool
  | .returnStatement _ => true
  | _ => false

/-- A function without parameters, called without arguments, stands for what it returns. -/
def isPlainFunction {ρ : Type} : Form ρ → Bool
  | .function [] _ _ _ => true
  | _ => false

def foundLayer (id : NodeId) (f : Form (Node × Found)) : Found :=
  let self : Outcome Node := .ok (.node id (f.map (·.1)))
  match f with
  | .function _ body _ _ =>
    match body.find? fun s => isReturn s.1.form with
    | some s => ⟨self, s.2.asBody⟩
    | none => ⟨self, .error .noReturn⟩
  | .returnStatement (some e) => ⟨self, e.2.asValue⟩
  | .call callee [] => if isPlainFunction callee.1.form then ⟨callee.2.asBody, .error .noReturn⟩ else ⟨self, .error .noReturn⟩
  | _ => ⟨self, .error .noReturn⟩

/-- The expression that a function returns, looking through functions that are called where they stand. -/
def resultExpression (function : Node) : Outcome Node := (function.para foundLayer).asBody

end Node

/-- The parameters of a function. -/
def Tree.params {α : Type} (t : Tree α) : List (Tree α) :=
  match t.form with
  | .function params _ _ _ | .functionDeclaration _ params _ => params
  | _ => []

/-- The statements of a function. -/
def Tree.statements {α : Type} (t : Tree α) : List (Tree α) :=
  match t.form with
  | .function _ body _ _ | .functionDeclaration _ _ body => body
  | _ => []

/-- A folder for the expressions of a tree whose names are resolved. -/
def Folder.of (ns : Namespace) (names : Resolution) : Folder := { ns := ns, binding? := names.bindingOf }

/-- A folder that keeps the parameters of a function free. -/
def Folder.symbolic (ns : Namespace) (function : Node) : Folder :=
  let names := Resolution.of function
  { Folder.of ns names with free := (Tree.params function).filterMap fun (p : Node) => names.bindingFor p.mark }

/-- A folder that knows the value of the first parameter of a function. -/
def Folder.seeded (ns : Namespace) (function : Node) (seed : Value) : Folder :=
  let names := Resolution.of function
  let parameter := (Tree.params function).head?.bind fun (p : Node) => names.bindingFor p.mark
  { Folder.of ns names with values := parameter.toList.map fun b => (b, seed) }

namespace Node

/-- The members of an array literal. -/
def arrayElements? {α : Type} (t : Tree α) : Option (List (Tree α)) :=
  match t.form with
  | .array elements => some elements
  | _ => none

/-- The folded form of the result of a function, which has to be an array of three. -/
def foldedResult (ns : Namespace) (function expression : Node) : Outcome Shape := do
  match arrayElements? expression with
  | some elements => if elements.length ≠ 3 then throw (.elementCount elements.length)
  | none => pure ()
  let folded ← (Folder.symbolic ns function).fold expression
  match arrayElements? folded with
  | some [_, _, _] => return folded
  | _ => throw (.notTriple (← folded.renderExpression))

/-- A function whose result is folded, and the folded array in it. -/
structure FoldedFunction where
  function : Node
  result : Node

/-- Folds the result of a function where it stands, keeping the parameters free. -/
def foldResult (ns : Namespace) (function : Node) : Outcome FoldedFunction := do
  let expression ← resultExpression function
  let folded ← foldedResult ns function expression
  let fresh := folded.numberFrom (nextId function)
  return ⟨substitute (fun n => if n.mark = expression.mark then some fresh else none) function, fresh⟩

end Node

end Unravel
