import Unravel.Grammar.Cursor

/-! Where a statement may end without a semicolon: before a closing brace, at the end of the text, and at a
   line break, unless the next line starts with something that continues the statement. -/
namespace Unravel.Grammar

def isLineBreak (c : CodePoint) : Bool := c = '\n' ∨ c.toNat = 0x2028 ∨ c.toNat = 0x2029

/-- Blanks that may stand before the line break. Blanks that forbid a break are not among them. -/
def isSpace (c : CodePoint) : Bool :=
  isBlank c && !([0x85, 0xa0, 0x2007, 0x200b, 0x202f, 0x2060, 0xfeff].contains c.toNat)

def isLetter (c : CodePoint) : Bool := c.isLower || c.isUpper

/-- Whether a word that starts with an `i` is none of the operators `in` and `instanceof`. -/
def isPlainWord (afterI : Text) : Bool :=
  match afterI with
  | n :: more =>
    if n ≠ 'n' then true
    else if !(more.head?.any isLetter) then false
    else if Text.startsWith more "stanceof" then (more.drop 8).head?.any isLetter
    else true
  | [] => true

/-- Characters that continue the statement when a line starts with them. -/
def continuing : Text := "`,:;*%><=[(?^|&/"

/-- Whether the first character of a line starts a new statement. -/
def startsStatement : Text → Bool
  | [] => true
  | c :: more =>
    if continuing.contains c then false
    else if c = '.' then more.head?.any CodePoint.isDigit
    else if c = '+' ∨ c = '-' then more.head? == some c
    else if c = '!' then more.head? != some (CodePoint.ofChar '=')
    else if c = 'i' then isPlainWord more
    else true

/-- Looks for the first character after a line break that is neither blank nor in a comment. -/
def nextLine : Within → Text → Bool
  | .slash, [] => false
  | _, [] => true
  | .blanks, c :: more =>
    if isSpace c then nextLine .blanks more
    else if c = '/' then nextLine .slash more
    else startsStatement (c :: more)
  | .slash, c :: more =>
    if c = '/' then nextLine .lineComment more else if c = '*' then nextLine .blockComment more else false
  | .lineComment, c :: more => if isLineBreak c then nextLine .blanks more else nextLine .lineComment more
  | .blockComment, c :: more => if c = '*' then nextLine .star more else nextLine .blockComment more
  | .star, c :: more =>
    if c = '/' then nextLine .blanks more else if c = '*' then nextLine .star more else nextLine .blockComment more

/-- After a comment that holds or ends with a line break, a statement that has no operand at its end is over
unless a comma or an assignment follows. -/
def endsAfterComment : Text → Bool
  | [] => true
  | c :: _ => c ≠ ',' ∧ c ≠ '='

/-- The same, past further blanks and comments. -/
def endsAfterComments : Within → Text → Bool
  | .slash, [] => false
  | _, [] => true
  | .blanks, c :: more =>
    if isSpace c then endsAfterComments .blanks more
    else if c = '/' then endsAfterComments .slash more
    else endsAfterComment (c :: more)
  | .slash, c :: more =>
    if c = '/' then endsAfterComments .lineComment more
    else if c = '*' then endsAfterComments .blockComment more
    else false
  | .lineComment, c :: more =>
    if isLineBreak c then endsAfterComments .blanks more else endsAfterComments .lineComment more
  | .blockComment, c :: more =>
    if c = '*' then endsAfterComments .star more else endsAfterComments .blockComment more
  | .star, c :: more =>
    if c = '/' then endsAfterComments .blanks more
    else if c = '*' then endsAfterComments .star more
    else endsAfterComments .blockComment more

/-- Looks for the end of the statement on the rest of its line. `broken` says that the comment being read holds a
line break, which counts only where no operand stands before. -/
def restOfLine (operand broken : Bool) : Within → Text → Bool
  | .blanks, [] => true
  | .lineComment, [] => true
  | .slash, [] | .blockComment, [] | .star, [] => false
  | .blanks, c :: more =>
    if c = '\x7d' then true
    else if isLineBreak c then nextLine .blanks more
    else if isSpace c then restOfLine operand false .blanks more
    else if c = '/' then restOfLine operand false .slash more
    else false
  | .slash, c :: more =>
    if c = '/' then restOfLine operand false .lineComment more
    else if c = '*' then restOfLine operand false .blockComment more
    else false
  | .lineComment, c :: more =>
    if isLineBreak c then (!operand && endsAfterComments .blanks more) || nextLine .blanks more
    else restOfLine operand false .lineComment more
  | .blockComment, c :: more =>
    if c = '*' then restOfLine operand broken .star more
    else restOfLine operand (broken || isLineBreak c) .blockComment more
  | .star, c :: more =>
    if c = '/' then (broken && !operand && endsAfterComment more) || restOfLine operand false .blanks more
    else if c = '*' then restOfLine operand broken .star more
    else restOfLine operand (broken || isLineBreak c) .blockComment more

/-- Whether a statement may end here without a semicolon; `operand` says that an operand stands just before. -/
def mayEnd (operand : Bool) (t : Text) : Bool := restOfLine operand false .blanks t

end Unravel.Grammar
