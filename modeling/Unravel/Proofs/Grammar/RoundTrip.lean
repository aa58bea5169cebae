import Unravel.Proofs.Grammar.Provenance

/-! Formulas are read back from their text. -/
namespace Unravel

/-- Choices in each other, signs in a row and a power. -/
def nestedChoice : Text := "(a ?? -(-x)) || (p, q)[i] ** (v = typeof f(j) ? k : l.m)"

/-- A disjunction whose first operand is a nullish choice, which starts with a sequence. -/
def sequenceChoice : Text := "((x, y) ?? b) || c"

end Unravel
