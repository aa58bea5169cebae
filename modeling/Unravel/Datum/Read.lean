import Unravel.Datum
import Unravel.Fault
import Unravel.Decimal.Numeral

/-! Reading JSON text. Besides the standard grammar the words `NaN`, `Infinity` and `-Infinity` are numbers,
   and of repeated keys the last value counts. The reader stops at the first problem and reports where. -/
namespace Unravel.Datum

structure Cursor where
  rest : Text
  offset : Nat

/-- Why reading stopped. -/
inductive Stop where
  | problem (what : Text) (offset : Nat)
  | digitLimit (count : Nat)

abbrev Reader (α : Type) := Except Stop (α × Cursor)

namespace Cursor

def skip (c : Cursor) (n : Nat) : Cursor := ⟨c.rest.drop n, c.offset + n⟩

def skipBlanks (c : Cursor) : Cursor :=
  c.skip (c.rest.takeWhile fun x => [0x20, 0x9, 0xa, 0xd].contains x.toNat).length

def starts (c : Cursor) (word : Text) : Bool := c.rest.startsWith word

def stop (c : Cursor) (what : String) : Stop := .problem what c.offset

end Cursor

/-- The code point of four hexadecimal digits. -/
def hexUnit? (t : Text) : Option Nat :=
  let digits := t.take 4
  if digits.length = 4 ∧ digits.all CodePoint.isHexDigit then
    some (digits.foldl (fun n c => n * 16 + c.digitValue?.getD 0) 0)
  else none

def unitPoint (n : Nat) : CodePoint := (CodePoint.ofNat? n).getD default

/-- The escape after a backslash `u`; a pair of surrogate escapes is one code point. `c` stands at the `u`. -/
def readUnitEscape (c : Cursor) : Reader CodePoint :=
  let digits := c.skip 1
  match (if digits.rest.length ≤ 4 then none else hexUnit? digits.rest) with
  | none => .error (c.stop "Invalid \\uXXXX escape")
  | some high =>
    let next := digits.skip 4
    if (unitPoint high).isHighSurrogate ∧ 6 < next.rest.length ∧ next.starts "\\u" then
      match hexUnit? (next.rest.drop 2) with
      | none => .error ((next.skip 1).stop "Invalid \\uXXXX escape")
      | some low =>
        match Text.joinSurrogates [unitPoint high, unitPoint low] with
        | [point] => .ok (point, next.skip 6)
        | _ => .ok (unitPoint high, next)
    else .ok (unitPoint high, next)

def simpleEscape? (c : CodePoint) : Option CodePoint :=
  if c = '"' ∨ c = '\\' ∨ c = '/' then some c
  else if c = 'b' then CodePoint.ofNat? 8
  else if c = 'f' then CodePoint.ofNat? 12
  else if c = 'n' then some '\n'
  else if c = 'r' then some '\r'
  else if c = 't' then some '\t'
  else none

/-- The rest of a string after its opening quote, which stood at `start`. -/
def readString (start : Nat) : Nat → Cursor → Text → Reader Text
  | 0, _, _ => .error (.problem "Unterminated string starting at" start)
  | fuel + 1, c, read =>
    match c.rest with
    | [] => .error (.problem "Unterminated string starting at" start)
    | x :: more =>
      if x = '"' then .ok (read.reverse, c.skip 1)
      else if x = '\\' then
        match more with
        | [] => .error (.problem "Unterminated string starting at" start)
        | y :: _ =>
          if y = 'u' then
            match readUnitEscape (c.skip 1) with
            | .error e => .error e
            | .ok (point, next) => readString start fuel next (point :: read)
          else match simpleEscape? y with
            | none => .error (c.stop "Invalid \\escape")
            | some point => readString start fuel (c.skip 2) (point :: read)
      else if x.toNat ≤ 0x1f then .error (c.stop "Invalid control character at")
      else readString start fuel (c.skip 1) (x :: read)

/-- The whole digits of a number: a leading zero stands alone. -/
def wholeDigits : Text → Text
  | [] => []
  | c :: rest => if c = '0' then [c] else (c :: rest).takeWhile CodePoint.isDigit

/-- The length of a point with the digits after it; a point without digits does not count. -/
def fractionLength : Text → Nat
  | [] => 0
  | dot :: rest =>
    let digits := rest.takeWhile CodePoint.isDigit
    if dot = '.' ∧ !digits.isEmpty then 1 + digits.length else 0

/-- The length of an exponent with its mark; a mark without digits does not count. -/
def exponentLength : Text → Nat
  | [] => 0
  | e :: rest =>
    let body := (Numeral.readSign rest).2
    let digits := body.takeWhile CodePoint.isDigit
    if (e = 'e' ∨ e = 'E') ∧ !digits.isEmpty then 1 + (rest.length - body.length) + digits.length else 0

/-- A number without sign: its whole digits, whether it has a fraction or an exponent, and its length. -/
def scanNumber? (t : Text) : Option (Text × Bool × Nat) :=
  let whole := wholeDigits t
  if whole.isEmpty then none
  else
    let afterWhole := t.drop whole.length
    let fraction := fractionLength afterWhole
    let exponent := exponentLength (afterWhole.drop fraction)
    some (whole, 0 < fraction + exponent, whole.length + fraction + exponent)

/-- Whether a minus sign comes first, and what follows it. -/
def takeMinus : Text → Bool × Text
  | [] => (false, [])
  | c :: rest => if c = '-' then (true, rest) else (false, c :: rest)

def readNumber (c : Cursor) : Reader Datum :=
  let (negative, body) := takeMinus c.rest
  match scanNumber? body with
  | none => .error (c.stop "Expecting value")
  | some (whole, broken, length) =>
    let next := c.skip (length + if negative then 1 else 0)
    if broken then
      match Numeral.readDouble? (body.take length) with
      | some x => .ok (.number (if negative then x.neg else x), next)
      | none => .error (c.stop "Expecting value")
    else if Numeral.digitLimit < whole.length then .error (.digitLimit whole.length)
    else
      let n : Int := Numeral.digitsValue whole
      .ok (.integer (if negative then -n else n), next)

/-- The words that are values. -/
def words : List (String × Datum) := [
  ("null", .null), ("true", .boolean true), ("false", .boolean false), ("NaN", .number .nan),
  ("Infinity", .number (.infinity false)), ("-Infinity", .number (.infinity true))]

mutual
def readValue : Nat → Cursor → Reader Datum
  | 0, c => .error (c.stop "Expecting value")
  | fuel + 1, c =>
    match c.rest with
    | [] => .error (c.stop "Expecting value")
    | x :: _ =>
      if x = '"' then
        match readString c.offset (c.rest.length + 1) (c.skip 1) [] with
        | .error e => .error e
        | .ok (t, next) => .ok (.text t, next)
      else if x = '\x7b' then
        let next := (c.skip 1).skipBlanks
        if next.starts "\x7d" then .ok (.mapping [], next.skip 1) else readMembers fuel next []
      else if x = '[' then
        let next := (c.skip 1).skipBlanks
        if next.starts "]" then .ok (.list [], next.skip 1) else readElements fuel next []
      else match words.find? fun word => c.starts word.1 with
        | some word => .ok (word.2, c.skip word.1.length)
        | none => readNumber c

/-- Members from a key on, up to the closing brace. -/
def readMembers : Nat → Cursor → List (Key × Datum) → Reader Datum
  | 0, c, _ => .error (c.stop "Expecting value")
  | fuel + 1, c, read =>
    if !c.starts "\"" then .error (c.stop "Expecting property name enclosed in double quotes")
    else match readString c.offset (c.rest.length + 1) (c.skip 1) [] with
      | .error e => .error e
      | .ok (key, next) =>
        let next := next.skipBlanks
        if !next.starts ":" then .error (next.stop "Expecting ':' delimiter")
        else match readValue fuel (next.skip 1).skipBlanks with
          | .error e => .error e
          | .ok (value, next) =>
            let next := next.skipBlanks
            let read := put (.text key) value read
            if next.starts "\x7d" then .ok (.mapping read, next.skip 1)
            else if next.starts "," then readMembers fuel (next.skip 1).skipBlanks read
            else .error (next.stop "Expecting ',' delimiter")

/-- Elements from a value on, up to the closing bracket; those already read come last first. -/
def readElements : Nat → Cursor → List Datum → Reader Datum
  | 0, c, _ => .error (c.stop "Expecting value")
  | fuel + 1, c, read =>
    match readValue fuel c with
    | .error e => .error e
    | .ok (value, next) =>
      let next := next.skipBlanks
      if next.starts "]" then .ok (.list (value :: read).reverse, next.skip 1)
      else if next.starts "," then readElements fuel (next.skip 1).skipBlanks (value :: read)
      else .error (next.stop "Expecting ',' delimiter")
end

/-- Line and column of an offset, both counted from one. -/
def lineColumn (t : Text) (offset : Nat) : Nat × Nat :=
  let before := t.take offset
  (before.count (CodePoint.ofChar '\n') + 1,
    (before.reverse.takeWhile (fun c => c != CodePoint.ofChar '\n')).length + 1)

def Stop.toFault (t : Text) : Stop → Fault
  | .problem what offset => let (line, column) := lineColumn t offset; .json what line column offset
  | .digitLimit count => .digitLimit count

/-- The datum that a whole text denotes. -/
def parse (t : Text) : Outcome Datum :=
  let start : Cursor := ⟨t, 0⟩
  if t.take 1 = [unitPoint 0xfeff] then
    .error ((start.stop "Unexpected UTF-8 BOM (decode using utf-8-sig)").toFault t)
  else match readValue (2 * t.length + 2) start.skipBlanks with
    | .error e => .error (e.toFault t)
    | .ok (d, next) =>
      let next := next.skipBlanks
      if next.rest.isEmpty then .ok d else .error ((next.stop "Extra data").toFault t)

end Unravel.Datum
