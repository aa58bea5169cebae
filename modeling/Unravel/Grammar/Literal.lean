import Unravel.Value.Convert

/-! The values that number and string literals denote, read from their source text. -/
namespace Unravel.Literal

-- powers are those of the core library, whatever else is in scope
attribute [local instance (2000)] instPowNat

/-- The part of a number literal that carries a value, without digit separators. -/
def significant (t : Text) : Text := t.filter fun c => c != CodePoint.ofChar '_'

def radix? : Text → Option Nat
  | zero :: mark :: _ =>
    if zero ≠ '0' then none
    else if mark = 'x' ∨ mark = 'X' then some 16
    else if mark = 'o' ∨ mark = 'O' then some 8
    else if mark = 'b' ∨ mark = 'B' then some 2
    else none
  | _ => none

/-- A numeral of several digits that starts with zero is octal unless a digit rules that out. -/
def legacyRadix? (t : Text) : Option Nat :=
  if 1 < t.length ∧ t.head? = some (CodePoint.ofChar '0') ∧ t.all CodePoint.isDecimal then
    some (if t.all CodePoint.isOctalDigit then 8 else 10)
  else none

def readNumber? (t : Text) : Option Double :=
  match radix? t with
  | some base => (digitsToNumber (t.drop 2) base).toOption
  | none =>
    match legacyRadix? t with
    | some base => (digitsToNumber t base).toOption
    | none => Numeral.readDouble? t

/-- The value of a number literal. Integers of unbounded size are not supported. -/
def number (t : Text) : Outcome Double :=
  let raw := significant t
  if raw.getLast? = some (CodePoint.ofChar 'n') then .error (.bigInteger t)
  else match readNumber? raw with
    | some x => .ok x
    | none => .error (.invalidNumber t)

/-- The number that hexadecimal or octal digits denote. -/
def digits (base : Nat) (t : Text) : Nat := t.foldl (fun n c => n * base + c.digitValue?.getD 0) 0

/-- The code point with a number; too large numbers fail in one of two ways. -/
def codePoint (n : Nat) : Outcome CodePoint :=
  match CodePoint.ofNat? n with
  | some c => .ok c
  | none => .error (if n < 2 ^ (31 : Nat) then .codePointRange else .codePointOverflow)

/-- The first digits of a text, if there are as many. -/
def exactly? (n : Nat) (p : CodePoint → Bool) (t : Text) : Option Text :=
  if (t.take n).length = n ∧ (t.take n).all p then some (t.take n) else none

/-- Hexadecimal digits in braces at the start of a text. -/
def braced? (t : Text) : Option Text :=
  match t with
  | opening :: more =>
    let run := more.takeWhile CodePoint.isHexDigit
    if opening = '\x7b' ∧ !run.isEmpty ∧ (more.drop run.length).head? = some (CodePoint.ofChar '\x7d') then some run
    else none
  | [] => none

def isLineEnd (c : CodePoint) : Bool := c = '\n' ∨ c = '\r' ∨ c.toNat = 0x2028 ∨ c.toNat = 0x2029

/-- What an escape of one character stands for. -/
def simpleEscape (c : CodePoint) : Text :=
  if c = 'b' then [⟨8, by decide⟩]
  else if c = 'f' then [⟨12, by decide⟩]
  else if c = 'n' then ['\n']
  else if c = 'r' then ['\r']
  else if c = 't' then ['\t']
  else if c = 'v' then [⟨11, by decide⟩]
  else if isLineEnd c then []
  else [c]

/-- At most three octal digits, as many as stay below 256. -/
def octalRun (t : Text) : Text :=
  match t with
  | c :: _ => (t.take (if c.isBetween '0' '3' then 3 else 2)).takeWhile CodePoint.isOctalDigit
  | [] => []

/-- The text of the escape that starts after a backslash, and the number of characters that it takes. -/
def escape (c : CodePoint) (more : Text) : Outcome (Text × Nat) := do
  if c = 'u' then
    match braced? more, exactly? 4 CodePoint.isHexDigit more with
    | some run, _ => return ([← codePoint (digits 16 run)], run.length + 3)
    | none, some run => return ([← codePoint (digits 16 run)], 5)
    | none, none => return ([c], 1)
  if c = 'x' then
    match exactly? 2 CodePoint.isHexDigit more with
    | some run => return ([← codePoint (digits 16 run)], 3)
    | none => return ([c], 1)
  if c.isOctalDigit then
    let run := octalRun (c :: more)
    return ([← codePoint (digits 8 run)], run.length)
  if c = '\r' ∧ more.head? = some (CodePoint.ofChar '\n') then return ([], 2)
  return (simpleEscape c, 1)

/-- Replaces escapes; a backslash at the very end stays. The bound is the length of the text. -/
def unescape : Nat → Text → Outcome Text
  | 0, t => .ok t
  | _ + 1, [] => .ok []
  | n + 1, c :: more =>
    if c = '\\' then
      match more with
      | [] => .ok [c]
      | mark :: rest => do
        let (head, length) ← escape mark rest
        return head ++ (← unescape n (more.drop length))
    else do return c :: (← unescape n more)

/-- The value of a string literal, its quotes included. Escaped surrogate pairs become one code point. -/
def string (t : Text) : Outcome Text := do
  match t with
  | quote :: body =>
    if (quote = '\'' ∨ quote = '"') ∧ body.getLast? = some quote then
      let decoded ← unescape body.length body.dropLast
      return Text.joinSurrogates decoded
    else throw (.malformedString t)
  | [] => throw (.malformedString t)

end Unravel.Literal
