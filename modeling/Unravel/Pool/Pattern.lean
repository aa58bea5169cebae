import Unravel.Fold
import Unravel.Pool
import Unravel.Result

/-! Finding the pieces of a rotating pool in a tree: a function that holds the strings, an accessor that turns an
   index into a string, and a statement that rotates the pool until a check computed from its strings comes out at
   a target. -/
namespace Unravel

/-- The pieces of one pool. -/
structure Pattern where
  poolFunction : Node
  poolBinding : BindingId
  strings : List Text
  accessor : Node
  accessorBinding : BindingId
  op : BinaryOp
  offset : Double
  /-- The rotating statement. -/
  rotation : Node
  check : Node
  target : Value
  names : Resolution

namespace Pattern

def isFunction {ρ : Type} : Form ρ → Bool
  | .function .. | .functionDeclaration .. => true
  | _ => false

/-- The nodes of a subtree that are in no function inside it. -/
def ownTree (t : Node) : List Node :=
  t.para fun id f =>
    .node id (f.map (·.1)) :: if isFunction f then [] else f.children.flatMap (·.2)

/-- The nodes below a function that are in no function inside it. -/
def ownNodes (function : Node) : List Node := function.children.flatMap ownTree

def stringOf? (t : Node) : Option Text :=
  match t.form with
  | .string s => some s
  | _ => none

/-- The strings that a declarator is initialised with. -/
def stringArray? (t : Node) : Option (List Text) :=
  match t.form with
  | .declarator _ (some init) =>
    match init.form with
    | .array (first :: rest) => (first :: rest).mapM stringOf?
    | _ => none
  | _ => none

def isFunctionDeclaration (t : Node) : Bool :=
  match t.form with
  | .functionDeclaration .. => true
  | _ => false

/-- The first function declaration without parameters that holds an array of strings. -/
def findPool? (root : Node) (names : Resolution) : Option (Node × BindingId × List Text) :=
  root.walk.findSome? fun n =>
    if isFunctionDeclaration n && n.params.isEmpty then do
      let strings ← (ownNodes n).findSome? stringArray?
      return (n, ← names.bindingFor n.mark, strings)
    else none

/-- The binding of a function that is called by its name. -/
def calledBinding? (names : Resolution) (t : Node) : Option BindingId :=
  match t.form with
  | .call callee _ =>
    match callee.form with
    | .identifier _ => names.bindingOf callee.mark
    | _ => none
  | _ => none

def calls (names : Resolution) (binding : BindingId) (t : Node) : Bool :=
  t.walk.any fun n => calledBinding? names n == some binding

/-- A value that is known without running anything; nothing if evaluation fails. Other faults stay faults. -/
def static? (ns : Namespace) (t : Node) : Outcome (Option Value) :=
  match evaluateStatic ns t with
  | .ok v => .ok (some v)
  | .error f => if f.category = .evaluation then .ok none else .error f

/-- The first success of a search that can fail. -/
def findFirst {α β : Type} (f : α → Outcome (Option β)) : List α → Outcome (Option β)
  | [] => .ok none
  | a :: rest => do
    match ← f a with
    | some b => return some b
    | none => findFirst f rest

def isArithmetic (op : BinaryOp) : Bool := op.isStrict && !op.isComparison

/-- The operator and the constant of an assignment that shifts a variable by a constant number. -/
def shift? (ns : Namespace) (t : Node) : Outcome (Option (BinaryOp × Double)) := do
  match t.form with
  | .assign target op value =>
    match target.form, value.form with
    | .identifier name, .binary operator left right =>
      match left.form with
      | .identifier other =>
        if op = "=" ∧ isArithmetic operator ∧ other = name then
          match ← static? ns right with
          | some (.number x) => return some (operator, x)
          | _ => return none
        else return none
      | _ => return none
    | _, _ => return none
  | _ => return none

/-- The first other function declaration that calls the pool function and shifts an index. -/
def findAccessor (ns : Namespace) (root : Node) (names : Resolution) (pool : NodeId) (binding : BindingId) :
    Outcome (Option (Node × BindingId × BinaryOp × Double)) :=
  findFirst (fun n => do
    if !isFunctionDeclaration n || n.mark == pool || !calls names binding n then return none
    match ← findFirst (shift? ns) n.walk, names.bindingFor n.mark with
    | some (op, offset), some id => return some (n, id, op, offset)
    | _, _ => return none) root.walk

/-- The first binary expression that a variable of a function is initialised with. -/
def checkOf? (function : Node) : Option Node :=
  (ownNodes function).findSome? fun n =>
    match n.form with
    | .declarator _ (some init) =>
      match init.form with
      | .binary .. => some init
      | _ => none
    | _ => none

/-- The function and the arguments of a statement that calls a function where it stands. -/
def invocation? (t : Node) : Option (Node × List Node) :=
  match t.form with
  | .expressionStatement e =>
    match e.form with
    | .call callee args =>
      match callee.form with
      | .function .. => some (callee, args)
      | _ => none
    | _ => none
  | _ => none

/-- The pool that is handed over as the first argument. -/
def isGiven (names : Resolution) (binding : BindingId) (t : Node) : Bool :=
  match t.form with
  | .identifier _ => names.bindingOf t.mark == some binding
  | _ => false

/-- The first statement that calls a function with the pool and a target. -/
def findRotation (ns : Namespace) (root : Node) (names : Resolution) (binding : BindingId) :
    Outcome (Option (Node × Node × Value)) :=
  findFirst (fun n => do
    match invocation? n with
    | some (function, pool :: goal :: _) =>
      if !isGiven names binding pool then return none
      match ← static? ns goal, checkOf? function with
      | some target, some check => return some (n, check, target)
      | _, _ => return none
    | _ => return none) root.walk

/-- The pieces of the pool in a tree; nothing if no function holds strings. -/
def find (ns : Namespace) (root : Node) : Outcome (Option Pattern) := do
  let names := Resolution.of root
  match findPool? root names with
  | none => return none
  | some (pool, binding, strings) =>
    match ← findAccessor ns root names pool.mark binding with
    | none => throw (.noAccessor binding.name)
    | some (accessor, accessorBinding, op, offset) =>
      match ← findRotation ns root names binding with
      | none => throw (.noRotation binding.name)
      | some (rotation, check, target) =>
        return some
          { poolFunction := pool, poolBinding := binding, strings := strings, accessor := accessor,
            accessorBinding := accessorBinding, op := op, offset := offset, rotation := rotation, check := check,
            target := target, names := names }

def pool (p : Pattern) : Pool := { strings := p.strings, offset := p.offset, op := p.op }

/-- An accessor takes its index from the first argument and ignores the others. -/
def access (pool : Pool) : Resolver
  | [] => .error .missingArgument
  | index :: _ => do return .string (← pool.resolve index)

/-- Whether the check comes out at the target while the pool stands as it does. Evaluation that fails is no match. -/
def isMatch (p : Pattern) (ns : Namespace) (pool : Pool) : Outcome Bool :=
  let folder := { Folder.of ns p.names with resolvers := [(p.accessorBinding, access pool)] }
  match (do (← folder.evaluate p.check).strictEquals p.target : Outcome Bool) with
  | .ok b => .ok b
  | .error f => if f.category = .evaluation then .ok false else .error f

/-- Rotates at most `left` times; gives the pool where it stopped and the number of rotations. -/
def rotateUntil (p : Pattern) (ns : Namespace) : Nat → Nat → Pool → Pool × Outcome Nat
  | 0, _, pool =>
    (pool, do throw (.notConverging pool.length (← p.check.renderExpression) p.target))
  | left + 1, done, pool =>
    match p.isMatch ns pool with
    | .error f => (pool, .error f)
    | .ok true => (pool, .ok done)
    | .ok false =>
      match pool.rotate with
      | .ok next => rotateUntil p ns left (done + 1) next
      | .error f => (pool, .error f)

/-- Rotates a pool until the check comes out at the target, trying every state once. -/
def simulate (p : Pattern) (ns : Namespace) (pool : Pool) : Pool × Outcome Nat := p.rotateUntil ns pool.length 0 pool

end Pattern

end Unravel
