import Unravel.Grammar.Cursor
import Unravel.Grammar.Literal

/-! Words, literals and symbols of source text. Every reader gives the number of characters that it takes; zero
   or nothing where it does not apply. -/
namespace Unravel.Grammar

inductive Token where
  /-- A name or a reserved word. -/
  | word (t : Text)
  | number (t : Text)
  | string (t : Text)
  | privateName (t : Text)
  | symbol (t : Text)
deriving DecidableEq

/-- Words that cannot be names, though they can be keys and names of members. -/
def reserved : List Text := List.map Text.ofString [
  "break", "case", "catch", "class", "const", "continue", "debugger", "default", "delete", "do", "else", "export",
  "extends", "false", "finally", "for", "function", "if", "import", "in", "instanceof", "new", "null", "return",
  "super", "switch", "this", "throw", "true", "try", "typeof", "var", "void", "while", "with"]

/-- Characters that end a name. -/
def punctuation : Text := ":;`\"'@#.,|^&<=>+-*/\\%?!~()[]\x7b\x7d"

def isNamePart (c : CodePoint) : Bool := 0x20 ≤ c.toNat && !isBlank c && !punctuation.contains c

def isNameStart (c : CodePoint) : Bool := isNamePart c && !c.isDigit

/-- The length of a `\u` escape after its backslash. -/
def unitEscape? : Text → Option Nat
  | [] => none
  | u :: more =>
    if u ≠ 'u' then none
    else match Literal.braced? more, Literal.exactly? 4 CodePoint.isHexDigit more with
      | some run, _ => some (run.length + 3)
      | none, some _ => some 5
      | none, none => none

/-- The length of a name whose characters have to pass a test; the first `skip` of them were looked at already. -/
def nameLength (p : CodePoint → Bool) : Nat → Text → Nat
  | _, [] => 0
  | skip + 1, _ :: more => 1 + nameLength p skip more
  | 0, c :: more =>
    if p c then 1 + nameLength isNamePart 0 more
    else if c = '\\' then
      match unitEscape? more with
      | some n => 1 + nameLength isNamePart n more
      | none => 0
    else 0

/-- The length of a continued run of digits; one separator may stand before a digit. -/
def digitTail (p : CodePoint → Bool) : Text → Nat
  | [] => 0
  | [c] => if p c then 1 else 0
  | c :: d :: more =>
    if p c then 1 + digitTail p (d :: more)
    else if c = '_' ∧ p d then 2 + digitTail p more
    else 0

def digitRun (p : CodePoint → Bool) (t : Text) : Nat :=
  match t with
  | c :: _ => if p c then digitTail p t else 0
  | [] => 0

def exponentLength (t : Text) : Nat :=
  match t with
  | e :: more =>
    if e = 'e' ∨ e = 'E' then
      let sign := match more with
        | s :: _ => if s = '+' ∨ s = '-' then 1 else 0
        | [] => 0
      let run := digitRun CodePoint.isDigit (more.drop sign)
      if run = 0 then 0 else 1 + sign + run
    else 0
  | [] => 0

/-- The length of a numeral in another base, marked by a letter after a zero. -/
def radixLength (t : Text) : Nat :=
  let digit : CodePoint → Bool := match Literal.radix? t with
    | some 16 => CodePoint.isHexDigit
    | some 8 => CodePoint.isOctalDigit
    | some 2 => fun c => c.isBetween '0' '1'
    | _ => fun _ => false
  match digitRun digit (t.drop 2) with
  | 0 => 0
  | n => n + 2

/-- The length of a whole part that a fraction or an exponent may follow: a zero, or digits with at most one zero
in front. -/
def wholeLength (t : Text) : Nat :=
  match t with
  | c :: d :: _ =>
    if c = '0' then (if d.isBetween '1' '9' then digitTail CodePoint.isDigit t else 1)
    else digitRun CodePoint.isDigit t
  | [c] => if c.isDigit then 1 else 0
  | [] => 0

/-- The length of a decimal numeral with a point or an exponent. -/
def decimalLength (t : Text) : Nat :=
  let whole := wholeLength t
  match t.drop whole with
  | [] => 0
  | c :: more =>
    if c = '.' then
      let fraction := digitRun CodePoint.isDigit more
      if whole = 0 ∧ fraction = 0 then 0
      else whole + 1 + fraction + exponentLength (more.drop fraction)
    else if whole = 0 then 0
    else match exponentLength (c :: more) with
      | 0 => 0
      | n => whole + n

/-- The length of the longest numeral. -/
def numberLength (t : Text) : Nat :=
  let radix := radixLength t
  let plain := digitRun CodePoint.isDigit t
  let whole := max radix plain
  let big := if 0 < whole ∧ (t.drop whole).head? = some (CodePoint.ofChar 'n') then whole + 1 else whole
  max big (decimalLength t)

/-- Line ends that an escaped carriage return or question mark takes along. -/
def isWrapped (c : CodePoint) : Bool := c = '\n' ∨ c.toNat = 0x2028 ∨ c.toNat = 0x2029

/-- The length of an escape after its backslash, in strings and templates. -/
def escapeLength? (t : Text) : Option Nat :=
  match t with
  | [] => none
  | c :: more =>
    if c = 'x' then (Literal.exactly? 2 CodePoint.isHexDigit more).map fun _ => 3
    else if c = 'u' then unitEscape? t
    else if c.isOctalDigit then some ((t.take 3).takeWhile CodePoint.isOctalDigit).length
    else if (c = '\r' ∨ c = '?') ∧ more.head?.any isWrapped then some 2
    else some 1

/-- The length of a string literal after its opening quote, with the closing one. -/
def stringLength? (quote : CodePoint) : Nat → Text → Option Nat
  | _, [] => none
  | skip + 1, _ :: more => (stringLength? quote skip more).map (· + 1)
  | 0, c :: more =>
    if c = quote then some 1
    else if c = '\n' ∨ c = '\r' then none
    else if c = '\\' then
      match escapeLength? more with
      | some n => (stringLength? quote n more).map (· + 1)
      | none => none
    else (stringLength? quote 0 more).map (· + 1)

/-- Where a reader of a regular expression stands. -/
inductive WithinPattern where
  | plain
  | escaped
  | set
  | escapedInSet

/-- The length of a regular expression after its opening slash, with the closing one and the flags. -/
def patternLength? : WithinPattern → Text → Option Nat
  | _, [] => none
  | .plain, c :: more =>
    if c = '\n' then none
    else if c = '/' then some (1 + (more.takeWhile CodePoint.isLower).length)
    else if c = '\\' then (patternLength? .escaped more).map (· + 1)
    else if c = '[' then (patternLength? .set more).map (· + 1)
    else (patternLength? .plain more).map (· + 1)
  | .escaped, c :: more => if c = '\n' then none else (patternLength? .plain more).map (· + 1)
  | .set, c :: more =>
    if c = '\n' then none
    else if c = ']' then (patternLength? .plain more).map (· + 1)
    else if c = '\\' then (patternLength? .escapedInSet more).map (· + 1)
    else (patternLength? .set more).map (· + 1)
  | .escapedInSet, c :: more => if c = '\n' then none else (patternLength? .set more).map (· + 1)

/-- Symbols, longer ones first. -/
def symbols : List Text := List.map Text.ofString [
  ">>>=", "===", "!==", ">>>", "<<=", ">>=", "**=", "&&=", "||=", "??=", "...",
  "=>", "==", "!=", "<=", ">=", "&&", "||", "??", "?.", "++", "--", "+=", "-=", "*=", "/=", "%=", "&=", "|=",
  "^=", "<<", ">>", "**",
  "\x7b", "\x7d", "(", ")", "[", "]", ";", ",", "<", ">", "+", "-", "*", "/", "%", "&", "|", "^", "!", "~", "?",
  ":", "=", ".", "`"]

/-- A question mark and a point before a digit are two symbols. -/
def symbol? (t : Text) : Option Text :=
  match symbols.find? fun s => t.startsWith s with
  | some s => if s = "?." ∧ (t.drop 2).head?.any CodePoint.isDigit then some "?" else some s
  | none => none

/-- The token at the start of a text and its length. -/
def token? (t : Text) : Option (Token × Nat) :=
  match t with
  | [] => none
  | c :: more =>
    match nameLength isNameStart 0 t with
    | n + 1 => some (.word (t.take (n + 1)), n + 1)
    | 0 =>
      match numberLength t with
      | n + 1 => some (.number (t.take (n + 1)), n + 1)
      | 0 =>
        if c = '"' ∨ c = '\'' then
          (stringLength? c 0 more).map fun n => (.string (t.take (n + 1)), n + 1)
        else if c = '#' then
          match nameLength isNameStart 0 more with
          | 0 => none
          | n => some (.privateName (t.take (n + 1)), n + 1)
        else (symbol? t).map fun s => (.symbol s, s.length)

end Unravel.Grammar
