import Unravel.Grammar.Token
import Unravel.Syntax.Literal

/-! What the grammar knows about a stretch of source: which construct it is, where it starts, and the tree that it
   stands for. Constructs outside the supported language are read all the same; their trees are faults, and the
   order in which parts are asked for their trees decides which fault is reported. -/
namespace Unravel.Grammar

def unsupported (what : Text) (p : Position) : Fault := .unsupportedAt what p.line p.column

/-- What an expression can serve as besides being evaluated. -/
inductive Role where
  | other
  | name
  /-- The word `undefined`, which is a name of its own kind. -/
  | undefinedName
  | access
  | parenthesised
  /-- An array or object literal, and whether it also reads as a pattern. -/
  | composite (isPattern : Bool)
  /-- An assignment, and whether it also reads as a pattern with a default value. -/
  | assignment (isPattern : Bool)
deriving DecidableEq

namespace Role

def isPattern : Role → Bool
  | name | undefinedName | access => true
  | composite p => p
  | _ => false

def isPatternOrDefaulted : Role → Bool
  | assignment p => p
  | r => r.isPattern

/-- What may stand before `=`. -/
def isTarget : Role → Bool
  | parenthesised => true
  | r => r.isPattern

/-- What may stand before a compound assignment operator. -/
def isCompoundTarget : Role → Bool
  | name | access | parenthesised => true
  | _ => false

end Role

structure Phrase where
  kind : Text
  start : Position
  role : Role := .other
  /-- The kind inside all parentheses. -/
  core : Text := kind
  /-- A literal with a default value in it is a pattern only. -/
  isExpression : Bool := true
  lowered : Outcome Shape

namespace Phrase

def leaf (kind : Text) (start : Position) (form : Form Shape) : Phrase where
  kind := kind
  start := start
  lowered := .ok (.node () form)

/-- A construct that has no tree. -/
def foreign (kind : Text) (start : Position) : Phrase where
  kind := kind
  start := start
  lowered := .error (unsupported kind start)

def name (t : Text) (start : Position) : Phrase :=
  let known := t = "undefined"
  { kind := if known then "undefined" else "identifier"
    start := start
    role := if known then .undefinedName else .name
    lowered := .ok (Shape.identifier t) }

def number (t : Text) (start : Position) : Phrase where
  kind := "number"
  start := start
  lowered := do return .node () (.number (← Literal.number t))

def string (t : Text) (start : Position) : Phrase where
  kind := "string"
  start := start
  lowered := do return .node () (.string (← Literal.string t))

def parenthesised (start : Position) (inner : Phrase) : Phrase where
  kind := "parenthesized_expression"
  start := start
  role := .parenthesised
  core := inner.core
  lowered := inner.lowered

/-- The kind of a phrase that serves as a pattern. -/
def patternKind (p : Phrase) : Text :=
  match p.role with
  | .composite _ => p.kind ++ "_pattern"
  | .assignment _ => "assignment_pattern"
  | _ => p.kind

def member (object : Phrase) (isOptional : Bool) (property : Token) (place : Position) : Phrase where
  kind := "member_expression"
  start := object.start
  role := .access
  lowered := do
    if isOptional then throw (unsupported "optional member access" object.start)
    match property with
    | .word name => return .node () (.member (← object.lowered) name)
    | _ => throw (unsupported "private member access" place)

def index (object : Phrase) (isOptional : Bool) (key : Phrase) : Phrase where
  kind := "subscript_expression"
  start := object.start
  role := .access
  lowered := do
    if isOptional then throw (unsupported "optional member access" object.start)
    let o ← object.lowered
    return .node () (.index o (← key.lowered))

def unary (op : UnaryOp) (start : Position) (operand : Phrase) : Phrase where
  kind := "unary_expression"
  start := start
  lowered := do return .node () (.unary op (← operand.lowered))

def binary (left : Phrase) (op : BinaryOp) (right : Phrase) : Phrase where
  kind := "binary_expression"
  start := left.start
  lowered := do
    let l ← left.lowered
    return .node () (.binary op l (← right.lowered))

def conditional (test consequent alternate : Phrase) : Phrase where
  kind := "ternary_expression"
  start := test.start
  lowered := do
    let t ← test.lowered
    let c ← consequent.lowered
    return .node () (.conditional t c (← alternate.lowered))

def assign (target : Phrase) (op : Text) (value : Phrase) : Phrase where
  kind := if op = "=" then "assignment_expression" else "augmented_assignment_expression"
  start := target.start
  role := .assignment (op = "=" ∧ target.role.isPattern)
  lowered := do
    match target.role with
    | .name | .access =>
      let t ← target.lowered
      return .node () (.assign t op (← value.lowered))
    | _ => throw (unsupported "destructuring assignment" target.start)

/-- Several expressions divided by commas; a single one stays as it is. -/
def sequence (first : Phrase) (others : List Phrase) : Phrase :=
  if others.isEmpty then first
  else
    { kind := "sequence_expression"
      start := first.start
      lowered := do return .node () (.sequence (← (first :: others).mapM Phrase.lowered)) }

end Phrase

/-- A member of a list in brackets. -/
inductive Element where
  | item (p : Phrase)
  | spread (start : Position) (p : Phrase)
  | comma

namespace Element

def isComma : Element → Bool
  | comma => true
  | _ => false

def isExpression : Element → Bool
  | item p | spread _ p => p.isExpression
  | comma => true

def isPattern : Element → Bool
  | item p => p.role.isPatternOrDefaulted
  | spread _ p => p.role.isPattern
  | comma => true

/-- The trees of the members; `what` names a spread member in the report. -/
def lowered (what : Text) : List Element → Outcome (List Shape)
  | [] => .ok []
  | comma :: rest => lowered what rest
  | item p :: rest => do
    let head ← p.lowered
    return head :: (← lowered what rest)
  | spread start _ :: _ => .error (unsupported what start)

/-- Whether the commas leave a place empty. One comma may stand at the end, except that a comment after it
hides it. -/
def hasHole (elements : List Element) (commentAtEnd : Bool) : Bool :=
  let commas := (elements.filter isComma).length
  let items := elements.length - commas
  let trailing := !commentAtEnd && (elements.getLast?.any isComma) && 0 < items
  commas != (items - 1) + (if trailing then 1 else 0)

end Element

namespace Phrase

def array (start : Position) (elements : List Element) (commentAtEnd : Bool) : Phrase where
  kind := "array"
  start := start
  role := .composite (elements.all Element.isPattern)
  isExpression := elements.all Element.isExpression
  lowered := do
    if Element.hasHole elements commentAtEnd then throw (unsupported "array hole" start)
    return .node () (.array (← Element.lowered "spread element" elements))

/-- Arguments are asked for their trees before the function. -/
def call (f : Phrase) (isOptional : Bool) (arguments : List Element) : Phrase where
  kind := "call_expression"
  start := f.start
  lowered := do
    if isOptional then throw (unsupported "optional call" f.start)
    let args ← Element.lowered "spread argument" arguments
    return .node () (.call (← f.lowered) args)

def tagged (f : Phrase) (template : Position) : Phrase where
  kind := "call_expression"
  start := f.start
  lowered := .error (unsupported "tagged template" template)

end Phrase

/-- A member of an object literal. -/
structure Member where
  isExpression : Bool := true
  isPattern : Bool := false
  lowered : Outcome Shape

namespace Member

/-- The text of a key that is written out. -/
def keyText (key : Token) (start : Position) : Outcome Text :=
  match key with
  | .word t | .number t => .ok t
  | .string t => Literal.string t
  | _ => .error (unsupported "computed object key" start)

def pair (key : Token) (start : Position) (value : Phrase) : Member where
  isExpression := value.isExpression
  isPattern := value.role.isPatternOrDefaulted
  lowered := do
    let k ← keyText key start
    return .node () (.property k (← value.lowered))

def shorthand (name : Text) : Member where
  isPattern := true
  lowered := .ok (.node () (.property name (Shape.identifier name)))

/-- A name with a default value. -/
def defaulted (name : Text) : Member where
  isExpression := false
  isPattern := true
  lowered := .ok (.node () (.property name (Shape.identifier name)))

def spread (start : Position) (value : Phrase) : Member where
  isExpression := value.isExpression
  isPattern := value.role.isPattern
  lowered := .error (unsupported "spread_element" start)

def method (start : Position) : Member where
  lowered := .error (unsupported "method_definition" start)

end Member

def Phrase.object (start : Position) (members : List Member) : Phrase where
  kind := "object"
  start := start
  role := .composite (members.all Member.isPattern)
  isExpression := members.all Member.isExpression
  lowered := do return .node () (.object (← members.mapM Member.lowered))

/-- A parameter is a pattern; only plain names are supported. -/
structure Parameter where
  lowered : Outcome Shape

namespace Parameter

def foreign (kind : Text) (start : Position) : Parameter := ⟨.error (unsupported (kind ++ " parameter") start)⟩

def ofPhrase (p : Phrase) : Parameter :=
  match p.role with
  | .name => ⟨p.lowered⟩
  | _ => foreign p.patternKind p.start

end Parameter

/-- A statement. In most places a statement may be a block, which then stands for the statements in it. -/
structure Clause where
  kind : Text
  start : Position
  /-- As one of several statements; an empty statement leaves nothing. -/
  lowered : Outcome (List Shape)
  /-- As the body of another construct. -/
  body : Outcome (List Shape) := lowered
  /-- The expression of an expression statement. -/
  expression : Option Phrase := none
  /-- Whether a label stands at the start of a statement in the block. -/
  hasLabel : Bool := false

namespace Clause

def single (kind : Text) (start : Position) (form : Outcome (Form Shape)) : Clause where
  kind := kind
  start := start
  lowered := do return [.node () (← form)]

def foreign (kind : Text) (start : Position) : Clause where
  kind := kind
  start := start
  lowered := .error (unsupported kind start)

def ofExpression (start : Position) (e : Phrase) : Clause where
  kind := "expression_statement"
  start := start
  lowered := do return [.node () (.expressionStatement (← e.lowered))]
  expression := some e

def empty (start : Position) : Clause where
  kind := "empty_statement"
  start := start
  lowered := .ok []

/-- The trees of a list of statements. -/
def all (clauses : List Clause) : Outcome (List Shape) := do
  return (← clauses.mapM Clause.lowered).flatten

def block (start : Position) (clauses : List Clause) : Clause where
  kind := "statement_block"
  start := start
  lowered := do return [.node () (.block (← all clauses))]
  body := all clauses
  hasLabel := clauses.any fun c => c.kind = "labeled_statement"

end Clause

namespace Phrase

/-- A function is asked for its own kind first, then for its parameters and its body. -/
def function (kind : Text) (start : Position) (isAsync : Bool) (name : Option Text) (params : List Parameter)
    (body : Outcome (List Shape)) : Phrase where
  kind := kind
  start := start
  lowered := do
    if kind ≠ "function_expression" then throw (unsupported kind start)
    if isAsync then throw (unsupported "async function" start)
    let ps ← params.mapM Parameter.lowered
    return .node () (.function ps (← body) (name.map Shape.identifier) false)

def arrow (start : Position) (isAsync : Bool) (params : List Parameter) (body : Outcome (List Shape)) : Phrase where
  kind := "arrow_function"
  start := start
  lowered := do
    if isAsync then throw (unsupported "async function" start)
    let ps ← params.mapM Parameter.lowered
    return .node () (.function ps (← body) none true)

end Phrase

namespace Clause

def function (kind : Text) (start : Position) (isAsync : Bool) (name : Text) (params : List Parameter)
    (body : Outcome (List Shape)) : Clause :=
  single kind start do
    if kind ≠ "function_declaration" then throw (unsupported kind start)
    if isAsync then throw (unsupported "async function" start)
    let ps ← params.mapM Parameter.lowered
    return .functionDeclaration (Shape.identifier name) ps (← body)

end Clause

/-- One name of a declaration: `none` for a destructuring pattern. -/
structure Declarator where
  start : Position
  name : Option Text
  value : Option Phrase

namespace Declarator

def lowered (d : Declarator) : Outcome Shape := do
  match d.name with
  | none => throw (unsupported "destructuring declaration" d.start)
  | some name =>
    let init ← match d.value with
      | none => pure none
      | some v => do pure (some (← v.lowered))
    return .node () (.declarator (Shape.identifier name) init)

def declaration (kind : Text) (ds : List Declarator) : Outcome (Form Shape) := do
  return .declaration kind (← ds.mapM lowered)

end Declarator

end Unravel.Grammar
