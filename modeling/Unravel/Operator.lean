import Unravel.Text

/-! Operator symbols of the script language. Symbols that are not operators of the language can stand in a
   tree too; they print as they are and nothing evaluates them. -/
namespace Unravel

inductive BinaryOp where
  | add | sub | mul | div | rem | pow
  | less | greater | lessEq | greaterEq
  | looseEq | looseNe | strictEq | strictNe
  | bitAnd | bitOr | bitXor | shiftLeft | shiftRight | shiftRightZero
  | logicalAnd | logicalOr | nullish
  | membership | instanceOf
  | other (symbol : Text)
deriving DecidableEq

namespace BinaryOp

def known : List (BinaryOp × String) := [
  (add, "+"), (sub, "-"), (mul, "*"), (div, "/"), (rem, "%"), (pow, "**"),
  (less, "<"), (greater, ">"), (lessEq, "<="), (greaterEq, ">="),
  (looseEq, "=="), (looseNe, "!="), (strictEq, "==="), (strictNe, "!=="),
  (bitAnd, "&"), (bitOr, "|"), (bitXor, "^"), (shiftLeft, "<<"), (shiftRight, ">>"), (shiftRightZero, ">>>"),
  (logicalAnd, "&&"), (logicalOr, "||"), (nullish, "??"), (membership, "in"), (instanceOf, "instanceof")]

def symbol : BinaryOp → Text
  | add => "+" | sub => "-" | mul => "*" | div => "/" | rem => "%" | pow => "**"
  | less => "<" | greater => ">" | lessEq => "<=" | greaterEq => ">="
  | looseEq => "==" | looseNe => "!=" | strictEq => "===" | strictNe => "!=="
  | bitAnd => "&" | bitOr => "|" | bitXor => "^" | shiftLeft => "<<" | shiftRight => ">>" | shiftRightZero => ">>>"
  | logicalAnd => "&&" | logicalOr => "||" | nullish => "??"
  | membership => "in" | instanceOf => "instanceof"
  | other s => s

def ofSymbol (s : Text) : BinaryOp :=
  match known.find? fun entry => (entry.2 : Text) == s with
  | some entry => entry.1
  | none => other s

/-- The operators that decide by their left operand whether the right one is evaluated. -/
def isLogical : BinaryOp → Bool
  | logicalAnd | logicalOr | nullish => true
  | _ => false

/-- The operators that compute a value from two values. -/
def isStrict : BinaryOp → Bool
  | logicalAnd | logicalOr | nullish | membership | instanceOf | other _ => false
  | _ => true

def isComparison : BinaryOp → Bool
  | less | greater | lessEq | greaterEq | looseEq | looseNe | strictEq | strictNe => true
  | _ => false

end BinaryOp

inductive UnaryOp where
  | minus | plus | not | bitNot | typeOf | void | delete
  | other (symbol : Text)
deriving DecidableEq

namespace UnaryOp

def known : List (UnaryOp × String) := [
  (minus, "-"), (plus, "+"), (not, "!"), (bitNot, "~"), (typeOf, "typeof"), (void, "void"), (delete, "delete")]

def symbol : UnaryOp → Text
  | minus => "-" | plus => "+" | not => "!" | bitNot => "~"
  | typeOf => "typeof" | void => "void" | delete => "delete"
  | other s => s

def ofSymbol (s : Text) : UnaryOp :=
  match known.find? fun entry => (entry.2 : Text) == s with
  | some entry => entry.1
  | none => other s

/-- Written with a blank before the operand. -/
def isWord : UnaryOp → Bool
  | typeOf | void | delete => true
  | other s => s == ("typeof" : Text) || s == ("void" : Text) || s == ("delete" : Text)
  | _ => false

def isFoldable : UnaryOp → Bool
  | delete | other _ => false
  | _ => true

end UnaryOp

end Unravel
