import Unravel.Double
import Unravel.Operator

/-! One layer of a syntax tree of the script language. `Form ρ` says what kind of construct stands there and
   holds its parts, the subtrees being of type `ρ`. Any construct can stand in any place: edits may put an
   expression where a statement was, and what cannot be printed is found out on printing. -/
namespace Unravel

inductive Form (ρ : Type) where
  | identifier (name : Text)
  | number (value : Double)
  | string (value : Text)
  | boolean (value : Bool)
  | null
  | undefined
  | array (elements : List ρ)
  | property (key : Text) (value : ρ)
  | object (properties : List ρ)
  | function (params : List ρ) (body : List ρ) (name : Option ρ) (isArrow : Bool)
  | call (callee : ρ) (args : List ρ)
  | member (object : ρ) (name : Text)
  | index (object : ρ) (key : ρ)
  | binary (op : BinaryOp) (left : ρ) (right : ρ)
  | unary (op : UnaryOp) (operand : ρ)
  | conditional (test : ρ) (consequent : ρ) (alternate : ρ)
  | assign (target : ρ) (op : Text) (value : ρ)
  | sequence (expressions : List ρ)
  | declarator (id : ρ) (init : Option ρ)
  | declaration (kind : Text) (declarations : List ρ)
  | functionDeclaration (name : ρ) (params : List ρ) (body : List ρ)
  | expressionStatement (expression : ρ)
  | returnStatement (argument : Option ρ)
  | ifStatement (test : ρ) (consequent : List ρ) (alternate : Option (List ρ))
  | forStatement (init : Option ρ) (test : Option ρ) (update : Option ρ) (body : List ρ)
  | whileStatement (test : ρ) (body : List ρ)
  | tryStatement (block : List ρ) (param : Option ρ) (handler : Option (List ρ)) (finalizer : Option (List ρ))
  | breakStatement
  | continueStatement
  | block (body : List ρ)

namespace Form

variable {ρ σ : Type}

/-- The name of the construct. -/
def kind : Form ρ → Text
  | identifier .. => "Identifier"
  | number .. => "NumberLiteral"
  | string .. => "StringLiteral"
  | boolean .. => "BooleanLiteral"
  | null => "NullLiteral"
  | undefined => "UndefinedLiteral"
  | array .. => "ArrayLiteral"
  | property .. => "Property"
  | object .. => "ObjectLiteral"
  | function .. => "FunctionExpression"
  | call .. => "Call"
  | member .. => "StaticMember"
  | index .. => "ComputedMember"
  | binary .. => "Binary"
  | unary .. => "Unary"
  | conditional .. => "Conditional"
  | assign .. => "Assign"
  | sequence .. => "Sequence"
  | declarator .. => "VarDeclarator"
  | declaration .. => "VarDeclaration"
  | functionDeclaration .. => "FunctionDeclaration"
  | expressionStatement .. => "ExpressionStatement"
  | returnStatement .. => "Return"
  | ifStatement .. => "If"
  | forStatement .. => "For"
  | whileStatement .. => "While"
  | tryStatement .. => "Try"
  | breakStatement => "Break"
  | continueStatement => "Continue"
  | block .. => "Block"

/-- The names of the parts, in order. -/
def fieldNames : Form ρ → List Text
  | identifier .. => ["name"]
  | number .. => ["value"]
  | string .. => ["value"]
  | boolean .. => ["value"]
  | null => []
  | undefined => []
  | array .. => ["elements"]
  | property .. => ["key", "value"]
  | object .. => ["properties"]
  | function .. => ["params", "body", "name", "is_arrow"]
  | call .. => ["callee", "args"]
  | member .. => ["object", "name"]
  | index .. => ["object", "key"]
  | binary .. => ["op", "left", "right"]
  | unary .. => ["op", "operand"]
  | conditional .. => ["test", "consequent", "alternate"]
  | assign .. => ["target", "op", "value"]
  | sequence .. => ["expressions"]
  | declarator .. => ["id", "init"]
  | declaration .. => ["kind", "declarations"]
  | functionDeclaration .. => ["name", "params", "body"]
  | expressionStatement .. => ["expression"]
  | returnStatement .. => ["argument"]
  | ifStatement .. => ["test", "consequent", "alternate"]
  | forStatement .. => ["init", "test", "update", "body"]
  | whileStatement .. => ["test", "body"]
  | tryStatement .. => ["block", "param", "handler", "finalizer"]
  | breakStatement => []
  | continueStatement => []
  | block .. => ["body"]

def map (f : ρ → σ) : Form ρ → Form σ
  | identifier n => .identifier n
  | number v => .number v
  | string v => .string v
  | boolean v => .boolean v
  | null => .null
  | undefined => .undefined
  | array e => .array (e.map f)
  | property k v => .property k (f v)
  | object p => .object (p.map f)
  | function p b n i => .function (p.map f) (b.map f) (n.map f) i
  | call c a => .call (f c) (a.map f)
  | member o n => .member (f o) n
  | index o k => .index (f o) (f k)
  | binary o l r => .binary o (f l) (f r)
  | unary o o2 => .unary o (f o2)
  | conditional t c a => .conditional (f t) (f c) (f a)
  | assign t o v => .assign (f t) o (f v)
  | sequence e => .sequence (e.map f)
  | declarator i i2 => .declarator (f i) (i2.map f)
  | declaration k d => .declaration k (d.map f)
  | functionDeclaration n p b => .functionDeclaration (f n) (p.map f) (b.map f)
  | expressionStatement e => .expressionStatement (f e)
  | returnStatement a => .returnStatement (a.map f)
  | ifStatement t c a => .ifStatement (f t) (c.map f) (a.map (·.map f))
  | forStatement i t u b => .forStatement (i.map f) (t.map f) (u.map f) (b.map f)
  | whileStatement t b => .whileStatement (f t) (b.map f)
  | tryStatement b p h y => .tryStatement (b.map f) (p.map f) (h.map (·.map f)) (y.map (·.map f))
  | breakStatement => .breakStatement
  | continueStatement => .continueStatement
  | block b => .block (b.map f)

/-- The subtrees, in the order of the parts. -/
def children : Form ρ → List ρ
  | identifier _ => []
  | number _ => []
  | string _ => []
  | boolean _ => []
  | null => []
  | undefined => []
  | array e => e
  | property _ v => [v]
  | object p => p
  | function p b n _ => p ++ b ++ n.toList
  | call c a => [c] ++ a
  | member o _ => [o]
  | index o k => [o, k]
  | binary _ l r => [l, r]
  | unary _ o2 => [o2]
  | conditional t c a => [t, c, a]
  | assign t _ v => [t, v]
  | sequence e => e
  | declarator i i2 => [i] ++ i2.toList
  | declaration _ d => d
  | functionDeclaration n p b => [n] ++ p ++ b
  | expressionStatement e => [e]
  | returnStatement a => a.toList
  | ifStatement t c a => [t] ++ c ++ a.getD []
  | forStatement i t u b => i.toList ++ t.toList ++ u.toList ++ b
  | whileStatement t b => [t] ++ b
  | tryStatement b p h f => b ++ p.toList ++ h.getD [] ++ f.getD []
  | breakStatement => []
  | continueStatement => []
  | block b => b

/-- Runs an action on every subtree, in the order of the parts. What stands in a list or in an optional place
may disappear. -/
def visit {m : Type → Type} [Monad m] (one : ρ → m σ) (maybe : ρ → m (Option σ)) (many : List ρ → m (List σ)) :
    Form ρ → m (Form σ)
  | identifier n => pure (.identifier n)
  | number v => pure (.number v)
  | string v => pure (.string v)
  | boolean v => pure (.boolean v)
  | null => pure .null
  | undefined => pure .undefined
  | array e => do return .array (← many e)
  | property k v => do return .property k (← one v)
  | object p => do return .object (← many p)
  | function p b n i => do return .function (← many p) (← many b) (← visitOption maybe n) i
  | call c a => do return .call (← one c) (← many a)
  | member o n => do return .member (← one o) n
  | index o k => do return .index (← one o) (← one k)
  | binary o l r => do return .binary o (← one l) (← one r)
  | unary o o2 => do return .unary o (← one o2)
  | conditional t c a => do return .conditional (← one t) (← one c) (← one a)
  | assign t o v => do return .assign (← one t) o (← one v)
  | sequence e => do return .sequence (← many e)
  | declarator i i2 => do return .declarator (← one i) (← visitOption maybe i2)
  | declaration k d => do return .declaration k (← many d)
  | functionDeclaration n p b => do return .functionDeclaration (← one n) (← many p) (← many b)
  | expressionStatement e => do return .expressionStatement (← one e)
  | returnStatement a => do return .returnStatement (← visitOption maybe a)
  | ifStatement t c a => do return .ifStatement (← one t) (← many c) (← a.mapM many)
  | forStatement i t u b => do return .forStatement (← visitOption maybe i) (← visitOption maybe t) (← visitOption maybe u) (← many b)
  | whileStatement t b => do return .whileStatement (← one t) (← many b)
  | tryStatement b p h f => do return .tryStatement (← many b) (← visitOption maybe p) (← h.mapM many) (← f.mapM many)
  | breakStatement => pure .breakStatement
  | continueStatement => pure .continueStatement
  | block b => do return .block (← many b)
where
  visitOption {m : Type → Type} [Monad m] (maybe : ρ → m (Option σ)) : Option ρ → m (Option σ)
    | none => pure none
    | some x => maybe x

def traverse {m : Type → Type} [Monad m] (f : ρ → m σ) : Form ρ → m (Form σ) :=
  visit f (fun x => do return some (← f x)) (fun xs => xs.mapM f)

/-- Changes every subtree, dropping those that `f` maps to nothing from lists and optional places. A place that
must be filled takes the value of `g`. -/
def prune (f : ρ → Option σ) (g : ρ → σ) (x : Form ρ) : Form σ :=
  Id.run (x.visit (fun y => pure (g y)) (fun y => pure (f y)) (fun ys => pure (ys.filterMap f)))

def isStatement : Form ρ → Bool
  | declaration .. | functionDeclaration .. | expressionStatement .. | returnStatement .. | ifStatement ..
  | forStatement .. | whileStatement .. | tryStatement .. | breakStatement | continueStatement | block .. => true
  | _ => false

/-- Statements and declarators can be deleted from where they stand. -/
def isRemovable (f : Form ρ) : Bool :=
  match f with
  | declarator .. => true
  | f => f.isStatement

/-- Properties and declarators are neither statements nor expressions. -/
def isExpression (f : Form ρ) : Bool :=
  match f with
  | property .. | declarator .. => false
  | f => !f.isStatement

end Form

end Unravel
