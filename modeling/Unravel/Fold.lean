import Unravel.Namespace
import Unravel.Scope
import Unravel.Syntax.Literal
import Unravel.Syntax.Render

/-! Folding of expressions. What depends on literals and on the namespace alone becomes a literal; references to
   free variables stay, so that a smallest residual expression is left. Whatever is outside the supported
   language is a fault. -/
namespace Unravel

/-- How a call of a local function with literal arguments is answered. -/
abbrev Resolver := List Value → Outcome Value

structure Folder where
  ns : Namespace
  /-- The local binding of an identifier; identifiers without one are names of the namespace. -/
  binding? : NodeId → Option BindingId := fun _ => none
  /-- Bindings whose values are known. -/
  values : List (BindingId × Value) := []
  /-- Bindings that stay symbolic. -/
  free : List BindingId := []
  resolvers : List (BindingId × Resolver) := []

namespace Folder

/-- What a subtree folds to, and the namespace path that it spells. -/
structure Part where
  result : Outcome Shape
  path : Unit → Outcome Text

abbrev Child := Node × Part

def areLiteral (ts : List Shape) : Bool := ts.all Tree.isLiteral

def node (f : Form Shape) : Shape := .node () f

/-- A path as a chain of member accesses. -/
def pathShape (path : Text) : Shape :=
  match Text.splitOn '.' path with
  | [] => Shape.identifier []
  | head :: rest => rest.foldl (fun object name => node (.member object name)) (Shape.identifier head)

variable (F : Folder)

def value? (b : BindingId) : Option Value := (F.values.find? fun e => e.1 == b).map (·.2)

def resolver? (b : BindingId) : Option Resolver := (F.resolvers.find? fun e => e.1 == b).map (·.2)

def read (path : Text) : Outcome Shape := do (← (← F.ns.lookup path).read).toShape

def identifier (id : NodeId) (name : Text) : Outcome Shape :=
  match F.binding? id with
  | none => F.read name
  | some b =>
    match F.value? b with
    | some v => v.toShape
    | none => if F.free.contains b then .ok (Shape.identifier name) else .error (.localBinding name)

/-- The text of a key that folds to a string or a number. -/
def staticKey (key : Child) : Outcome Text := do
  let folded ← key.2.result
  match folded.form with
  | .string t => return t
  | .number x => return NumberStyle.script.text x
  | _ => throw (.keyNotStatic (← key.1.renderExpression))

def path (id : NodeId) (f : Form Child) : Outcome Text :=
  match f with
  | .identifier name => if (F.binding? id).isSome then .error (.localMember name) else .ok name
  | .member object name => do return (← object.2.path ()) ++ "." ++ name
  | .index object key => do
    let name ← staticKey key
    return (← object.2.path ()) ++ "." ++ name
  | f => do throw (.notPath (← (Tree.node id (f.map (·.1))).renderExpression))

def unary (op : UnaryOp) (operand : Child) : Outcome Shape := do
  if !op.isFoldable then throw (.unfoldableOperator "unary" op.symbol)
  let x ← operand.2.result
  if x.isLiteral then (← Value.unary op (← x.literalValue)).toShape
  else return node (.unary op x)

def strict (op : BinaryOp) (left right : Child) : Outcome Shape := do
  let l ← left.2.result
  let r ← right.2.result
  if l.isLiteral && r.isLiteral then
    let x ← l.literalValue
    (← Value.binary op x (← r.literalValue)).toShape
  else return node (.binary op l r)

/-- Whether the left value of a logical operator decides that the right one is the result. -/
def goesRight : BinaryOp → Value → Bool
  | .logicalAnd, v => v.toBoolean
  | .logicalOr, v => !v.toBoolean
  | _, .undefined => true
  | _, _ => false

def logical (op : BinaryOp) (left right : Child) : Outcome Shape := do
  let l ← left.2.result
  if !l.isLiteral then return node (.binary op l (← right.2.result))
  if goesRight op (← l.literalValue) then right.2.result else return l

def binary (op : BinaryOp) (left right : Child) : Outcome Shape :=
  if op.isLogical then logical op left right
  else if op.isStrict then strict op left right
  else .error (.unfoldableOperator "binary" op.symbol)

def conditional (test consequent alternate : Child) : Outcome Shape := do
  let t ← test.2.result
  if t.isLiteral then
    if (← t.literalValue).toBoolean then consequent.2.result else alternate.2.result
  else
    let c ← consequent.2.result
    return node (.conditional t c (← alternate.2.result))

def results (children : List Child) : Outcome (List Shape) := children.mapM fun c => c.2.result

/-- The last of several expressions, if all are literal. There has to be one. -/
def sequence (expressions : List Child) : Outcome Shape := do
  let folded ← results expressions
  match folded.getLast? with
  | some last => if areLiteral folded then return last else return node (.sequence folded)
  | none => throw (.outsideGrammar "Sequence")

/-- Faults of a resolver that are taken as a failed call. -/
def isCallFailure (f : Fault) : Bool :=
  match f.category with
  | .badValue | .wrongType | .overflow | .zeroDivision => true
  | _ => false

def callLocal (b : BindingId) (args : List Child) : Outcome Shape := do
  match F.resolver? b with
  | none => throw (.localCall b.name)
  | some resolve =>
    let folded ← results args
    if !areLiteral folded then throw (.callNeedsLiterals b.name)
    match resolve (← folded.mapM Tree.literalValue) with
    | .ok v => v.toShape
    | .error f => throw (if isCallFailure f then .callFailed b.name f else f)

/-- Arguments of a measured call are never evaluated. -/
def callPath (path : Text) (args : List Child) : Outcome Shape := do
  let entry ← F.ns.lookup path
  if !entry.isCallable then throw (.notCallable path)
  entry.checkArity args.length
  match entry.behaviour with
  | .measuredCall _ => (← entry.measuredValue).toShape
  | _ =>
    let folded ← results args
    if areLiteral folded then (← entry.call (← folded.mapM Tree.literalValue)).toShape
    else return node (.call (pathShape path) folded)

def call (callee : Child) (args : List Child) : Outcome Shape :=
  let plain : Outcome Shape := do F.callPath (← callee.2.path ()) args
  match callee.1.form with
  | .identifier _ =>
    match F.binding? callee.1.mark with
    | some b => F.callLocal b args
    | none => plain
  | _ => plain

def result (id : NodeId) (f : Form Child) : Outcome Shape :=
  match f with
  | .identifier name => F.identifier id name
  | .member .. | .index .. => do F.read (← F.path id f)
  | .number x => .ok (node (.number x))
  | .string t => .ok (node (.string t))
  | .boolean b => .ok (node (.boolean b))
  | .undefined => .ok (node .undefined)
  | .array elements => do return node (.array (← results elements))
  | .unary op operand => unary op operand
  | .binary op left right => binary op left right
  | .conditional test consequent alternate => conditional test consequent alternate
  | .sequence expressions => sequence expressions
  | .call callee args => F.call callee args
  | f => .error (.outsideGrammar f.kind)

def layer (id : NodeId) (f : Form Child) : Part := ⟨F.result id f, fun _ => F.path id f⟩

/-- The folded form of an expression; its nodes are new. -/
def fold (t : Node) : Outcome Shape := (t.para F.layer).result

/-- The value of an expression that folds to a literal. -/
def evaluate (t : Node) : Outcome Value := do
  let folded ← F.fold t
  if folded.isLiteral then folded.literalValue else throw (.notReduced (← folded.renderExpression))

end Folder

/-- The value of an expression that uses only literals and paths of the namespace. -/
def evaluateStatic (ns : Namespace) (t : Node) : Outcome Value := Folder.evaluate { ns := ns } t

end Unravel
