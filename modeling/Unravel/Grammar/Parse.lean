import Unravel.Files
import Unravel.Grammar.Statement

/-! Reading a function or an expression. The source is put into parentheses, so that a function without a name is
   an expression; positions in messages count the added parenthesis. -/
namespace Unravel

namespace Grammar

/-- The only expression of a text, all of it being in parentheses that are added here. -/
def single (source : Text) : Outcome Phrase := do
  let text := "(" ++ source ++ ")"
  text.checkEncoding
  if text.any (fun c => c.toNat == 0) then throw .syntaxError
  match program text with
  | none => throw .syntaxError
  | some [clause] =>
    match clause.expression with
    | some e => return e
    | none => throw .notSingleExpression
  | some _ => throw .notSingleExpression

end Grammar

/-- The tree of an expression. -/
def parseExpression (source : Text) : Outcome Shape := do (← Grammar.single source).lowered

/-- The tree of a function expression with exactly one parameter. -/
def parseFunction (source : Text) : Outcome Shape := do
  let phrase ← Grammar.single source
  if phrase.core ≠ "function_expression" then throw (.notFunction phrase.core)
  let f ← phrase.lowered
  match f.form with
  | .function [_] _ _ _ => return f
  | .function params _ _ _ => throw (.parameterCount params.length)
  | _ => return f

end Unravel
