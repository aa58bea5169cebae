import Unravel.Syntax.Tree
import Unravel.Fault

/-! Printing trees as script source. Parentheses are put where the binding strength of a construct is below
   what its place asks for; a function inside an expression starts again at the left margin. -/
namespace Unravel

/-! Binding strengths. -/
namespace Strength

def sequence : Nat := 1

def assignment : Nat := 2

def conditional : Nat := 3

def unary : Nat := 15

def access : Nat := 18

def primary : Nat := 19

end Strength

/-- Symbols that are no operators bind as tightly as the tightest binary operator. -/
def BinaryOp.strength : BinaryOp → Nat
  | nullish | logicalOr => 4
  | logicalAnd => 5
  | bitOr => 6
  | bitXor => 7
  | bitAnd => 8
  | looseEq | looseNe | strictEq | strictNe => 9
  | less | greater | lessEq | greaterEq | membership | instanceOf => 10
  | shiftLeft | shiftRight | shiftRightZero => 11
  | add | sub => 12
  | mul | div | rem => 13
  | pow => 14
  | other _ => 14

/-- What the left operand has to reach. Powers group to the right. -/
def BinaryOp.leftStrength : BinaryOp → Nat
  | pow => BinaryOp.strength pow + 2
  | op => op.strength

def BinaryOp.rightStrength : BinaryOp → Nat
  | pow => BinaryOp.strength pow
  | op => op.strength + 1

/-- A nullish operator next to one of the other two logical operators. -/
def BinaryOp.mixesNullish : BinaryOp → BinaryOp → Bool
  | nullish, logicalAnd | nullish, logicalOr | logicalAnd, nullish | logicalOr, nullish => true
  | _, _ => false

namespace Form

variable {ρ : Type}

def strength : Form ρ → Nat
  | sequence _ => Strength.sequence
  | assign .. => Strength.assignment
  | function _ _ _ isArrow => if isArrow then Strength.assignment else Strength.primary
  | conditional .. => Strength.conditional
  | binary op _ _ => op.strength
  | unary .. => Strength.unary
  | number x => if x.isNegative then Strength.unary else Strength.primary
  | call .. | member .. | index .. => Strength.access
  | _ => Strength.primary

/-- The name that a construct shows where only a name can stand. -/
def shownName : Form ρ → Outcome Text
  | identifier name | member _ name => .ok name
  | f => .error (.nameless f.kind)

end Form

namespace Render

/-- The texts of a tree in the different places where it can stand. -/
structure Rendered where
  expression : Outcome Text
  /-- At a depth of indentation. -/
  statement : Nat → Outcome Text
  /-- As a member of an object literal. -/
  property : Outcome Text
  /-- As a member of a declaration. -/
  declarator : Outcome Text
  /-- As the start of a loop. -/
  initialiser : Outcome Text

variable {α : Type}

/-- A subtree with its texts. -/
abbrev Part (α : Type) := Tree α × Rendered

def number (x : Double) : Text :=
  if x.isZero && x.isNegative then "-0" else NumberStyle.script.text x

/-- A key that needs no quotes: an ASCII name, which one line feed may follow. -/
def isBareKey (t : Text) : Bool :=
  t.isAsciiIdentifier || (t.getLast? == some (CodePoint.ofChar '\n') && Text.isAsciiIdentifier t.dropLast)

def key (t : Text) : Text := if isBareKey t then t else t.quoteAscii

def parenthesised (t : Text) : Text := "(" ++ t ++ ")"

/-- An expression in a place that asks for some strength. -/
def within (least : Nat) (p : Part α) : Outcome Text := do
  let text ← p.2.expression
  return if p.1.form.strength < least then parenthesised text else text

def listed (ps : List (Part α)) : Outcome Text := do
  return Text.join ", " (← ps.mapM (within Strength.assignment))

def callee (p : Part α) : Outcome Text :=
  match p.1.form with
  | .function .. | .object _ => do return parenthesised (← p.2.expression)
  | _ => within Strength.access p

/-- An operand of a binary operator; mixing with a nullish operator asks for parentheses. -/
def operand (op : BinaryOp) (least : Nat) (p : Part α) : Outcome Text := do
  let text ← within least p
  let mixed := match p.1.form with
    | .binary inner _ _ => op.mixesNullish inner
    | _ => false
  return if mixed && !Text.startsWith text "(" then parenthesised text else text

def unary (op : UnaryOp) (p : Part α) : Outcome Text := do
  let text ← within Strength.unary p
  if op.isWord then return op.symbol ++ " " ++ text
  else if (op = .minus ∨ op = .plus) ∧ text.startsWith op.symbol then return op.symbol ++ parenthesised text
  else return op.symbol ++ text

def names (ps : List (Part α)) : Outcome Text := do
  return Text.join ", " (← ps.mapM fun p => p.1.form.shownName)

def body (depth : Nat) (ps : List (Part α)) : Outcome Text := do
  if ps.isEmpty then return "\x7b\x7d"
  let lines ← ps.mapM fun p => p.2.statement (depth + 1)
  return "\x7b\n" ++ Text.join "\n" lines ++ "\n" ++ Text.repeated "  " depth ++ "\x7d"

def function (params statements : List (Part α)) (name : Option (Part α)) (isArrow : Bool) : Outcome Text := do
  if isArrow then return "(" ++ (← names params) ++ ") => " ++ (← body 0 statements)
  let title : Text ← match name with
    | some p => do pure (" " ++ (← p.1.form.shownName))
    | none => pure []
  return "function" ++ title ++ "(" ++ (← names params) ++ ") " ++ (← body 0 statements)

def expression : Form (Part α) → Outcome Text
  | .identifier name => .ok name
  | .number x => .ok (number x)
  | .string t => .ok t.quoteAscii
  | .boolean b => .ok (if b then "true" else "false")
  | .null => .ok "null"
  | .undefined => .ok "undefined"
  | .array elements => do return "[" ++ (← listed elements) ++ "]"
  | .object properties => do
    return "\x7b" ++ Text.join ", " (← properties.mapM fun p => p.2.property) ++ "\x7d"
  | .function params statements name isArrow => function params statements name isArrow
  | .call f args => do
    let args ← listed args
    return (← callee f) ++ "(" ++ args ++ ")"
  | .member object name => do return (← callee object) ++ "." ++ name
  | .index object key => do return (← callee object) ++ "[" ++ (← key.2.expression) ++ "]"
  | .binary op left right => do
    return (← operand op op.leftStrength left) ++ " " ++ op.symbol ++ " " ++ (← operand op op.rightStrength right)
  | .unary op operand => unary op operand
  | .conditional test consequent alternate => do
    return (← within (Strength.conditional + 1) test) ++ " ? " ++ (← within Strength.assignment consequent)
      ++ " : " ++ (← within Strength.assignment alternate)
  | .assign target op value => do
    return (← within Strength.access target) ++ " " ++ op ++ " " ++ (← within Strength.assignment value)
  | .sequence expressions => listed expressions
  | f => .error (.notRenderable f.kind " as an expression")

def declarator : Form (Part α) → Outcome Text
  | .declarator id init => do
    let name ← id.1.form.shownName
    match init with
    | none => return name
    | some value => return name ++ " = " ++ (← within Strength.assignment value)
  | f => .error (.nameless f.kind)

def property : Form (Part α) → Outcome Text
  | .property name value => do return key name ++ ": " ++ (← within Strength.assignment value)
  | f => .error (.nameless f.kind)

def declaration (kind : Text) (declarators : List (Part α)) : Outcome Text := do
  return kind ++ " " ++ Text.join ", " (← declarators.mapM fun p => p.2.declarator)

/-- An expression, or a declaration without its semicolon. -/
def initialiser : Form (Part α) → Outcome Text
  | .declaration kind declarators => declaration kind declarators
  | f => expression f

def optional : Option (Part α) → Outcome Text
  | none => .ok []
  | some p => p.2.expression

/-- A statement that starts like a function or a block would be read as one. -/
def guarded (t : Text) : Text :=
  if t.startsWith "function" || t.startsWith "\x7b" then parenthesised t else t

def statement (f : Form (Part α)) (depth : Nat) : Outcome Text := do
  let pad := Text.repeated "  " depth
  match f with
  | .expressionStatement e => return pad ++ guarded (← e.2.expression) ++ ";"
  | .declaration kind declarators => return pad ++ (← declaration kind declarators) ++ ";"
  | .functionDeclaration name params statements =>
    let name ← name.1.form.shownName
    return pad ++ "function " ++ name ++ "(" ++ (← names params) ++ ") " ++ (← body depth statements)
  | .returnStatement none => return pad ++ "return;"
  | .returnStatement (some e) => return pad ++ "return " ++ (← e.2.expression) ++ ";"
  | .ifStatement test consequent alternate =>
    let head := pad ++ "if (" ++ (← test.2.expression) ++ ") " ++ (← body depth consequent)
    match alternate with
    | none => return head
    | some statements => return head ++ " else " ++ (← body depth statements)
  | .forStatement init test update statements =>
    let init ← match init with
      | none => pure []
      | some p => p.2.initialiser
    let test ← optional test
    let update ← optional update
    return pad ++ "for (" ++ init ++ "; " ++ test ++ "; " ++ update ++ ") " ++ (← body depth statements)
  | .whileStatement test statements =>
    return pad ++ "while (" ++ (← test.2.expression) ++ ") " ++ (← body depth statements)
  | .tryStatement block param handler finalizer =>
    let head := pad ++ "try " ++ (← body depth block)
    let caught : Text ← match handler with
      | none => pure []
      | some statements => do
        let clause : Text ← match param with
          | some p => do pure (" catch (" ++ (← p.1.form.shownName) ++ ")")
          | none => pure " catch"
        pure (clause ++ " " ++ (← body depth statements))
    match finalizer with
    | none => return head ++ caught
    | some statements => return head ++ caught ++ " finally " ++ (← body depth statements)
  | .breakStatement => return pad ++ "break;"
  | .continueStatement => return pad ++ "continue;"
  | .block statements => return pad ++ (← body depth statements)
  | f => throw (.notRenderable f.kind " as a statement")

def layer (f : Form (Part α)) : Rendered where
  expression := expression f
  statement := statement f
  property := property f
  declarator := declarator f
  initialiser := initialiser f

end Render

namespace Tree

variable {α : Type}

def rendered (t : Tree α) : Render.Rendered := t.para fun _ f => Render.layer f

def renderExpression (t : Tree α) : Outcome Text := t.rendered.expression

/-- The source text of a statement, expression or declarator. -/
def toSource (t : Tree α) : Outcome Text :=
  match t.form with
  | .declarator .. => do return "var " ++ (← t.rendered.declarator)
  | .property .. => .error (.notRenderable t.kind [])
  | f => if f.isStatement then t.rendered.statement 0 else t.renderExpression

end Tree

end Unravel
