/-! Text as a sequence of Unicode code points. Lone surrogates are ordinary members of a text, because
   escapes in script source can produce them; nothing here assumes that a text has a UTF-8 form. -/
namespace Unravel

structure CodePoint where
  toNat : Nat
  isLt : toNat < 0x110000
deriving DecidableEq

namespace CodePoint

def ofChar (c : Char) : CodePoint :=
  ⟨c.toNat, by have h := c.valid; simp only [UInt32.isValidChar, Nat.isValidChar] at h; simp only [Char.toNat]; omega⟩

instance : Coe Char CodePoint := ⟨ofChar⟩

instance : Inhabited CodePoint := ⟨' '⟩

def ofNat? (n : Nat) : Option CodePoint :=
  if h : n < 0x110000 then some ⟨n, h⟩ else none

/-- The character, with U+FFFD standing for a surrogate. -/
def toChar (c : CodePoint) : Char :=
  if c.toNat < 0xd800 ∨ 0xdfff < c.toNat then Char.ofNat c.toNat else Char.ofNat 0xfffd

def isBetween (c : CodePoint) (low high : Char) : Bool :=
  low.toNat ≤ c.toNat && c.toNat ≤ high.toNat

def isDigit (c : CodePoint) : Bool := c.isBetween '0' '9'

def isUpper (c : CodePoint) : Bool := c.isBetween 'A' 'Z'

def isLower (c : CodePoint) : Bool := c.isBetween 'a' 'z'

def isHighSurrogate (c : CodePoint) : Bool := 0xd800 ≤ c.toNat && c.toNat < 0xdc00

def isLowSurrogate (c : CodePoint) : Bool := 0xdc00 ≤ c.toNat && c.toNat < 0xe000

/-- Bytes of the UTF-8 form. -/
def utf8Size (c : CodePoint) : Nat :=
  if c.toNat < 0x80 then 1 else if c.toNat < 0x800 then 2 else if c.toNat < 0x10000 then 3 else 4

/-- The value of an ASCII digit or letter, letters of either case counting from ten. -/
def digitValue? (c : CodePoint) : Option Nat :=
  if c.isDigit then some (c.toNat - '0'.toNat)
  else if c.isLower then some (c.toNat - 'a'.toNat + 10)
  else if c.isUpper then some (c.toNat - 'A'.toNat + 10)
  else none

def isHexDigit (c : CodePoint) : Bool :=
  c.isDigit || c.isBetween 'a' 'f' || c.isBetween 'A' 'F'

def isOctalDigit (c : CodePoint) : Bool := c.isBetween '0' '7'

end CodePoint

export CodePoint (ofChar)

abbrev Text := List CodePoint

namespace Text

def ofString (s : String) : Text := s.toList.map CodePoint.ofChar

instance : Coe String Text := ⟨ofString⟩

def toString (t : Text) : String := String.ofList (t.map CodePoint.toChar)

def join (separator : Text) (parts : List Text) : Text := separator.intercalate parts

def repeated (t : Text) (n : Nat) : Text := (List.replicate n t).flatten

def startsWith (t head : Text) : Bool := head.isPrefixOf t

def endsWith (t tail : Text) : Bool := tail.isSuffixOf t

def trimLeft (p : CodePoint → Bool) (t : Text) : Text := t.dropWhile p

def trimRight (p : CodePoint → Bool) (t : Text) : Text := (t.reverse.dropWhile p).reverse

def trim (p : CodePoint → Bool) (t : Text) : Text := trimRight p (trimLeft p t)

/-- The pieces between the occurrences of one code point; at least one piece. -/
def splitOn (c : CodePoint) : Text → List Text
  | [] => [[]]
  | x :: rest =>
    if x = c then [] :: splitOn c rest
    else match splitOn c rest with
      | [] => [[x]]
      | piece :: pieces => (x :: piece) :: pieces

/-- Lexicographic order by code point. -/
def isLess : Text → Text → Bool
  | _, [] => false
  | [], _ :: _ => true
  | a :: as, b :: bs => a.toNat < b.toNat || (a.toNat == b.toNat && isLess as bs)

def isIdentifierStart (c : CodePoint) : Bool :=
  c.isLower || c.isUpper || c == '_' || c == '$'

def isIdentifierPart (c : CodePoint) : Bool := isIdentifierStart c || c.isDigit

/-- A name made of ASCII letters, digits, `_` and `$` that does not start with a digit. -/
def isAsciiIdentifier : Text → Bool
  | [] => false
  | c :: rest => isIdentifierStart c && rest.all isIdentifierPart

/-- Every high surrogate followed by a low one becomes the code point that the pair encodes. -/
def joinSurrogates : Text → Text
  | high :: low :: rest =>
    if h : high.isHighSurrogate ∧ low.isLowSurrogate then
      ⟨0x10000 + (high.toNat - 0xd800) * 0x400 + (low.toNat - 0xdc00), by
        simp only [CodePoint.isHighSurrogate, CodePoint.isLowSurrogate, Bool.and_eq_true, decide_eq_true_eq] at h
        omega⟩ :: joinSurrogates rest
    else high :: joinSurrogates (low :: rest)
  | t => t

def ofNat (n : Nat) : Text := ofString (Nat.repr n)

def ofInt (n : Int) : Text :=
  if n < 0 then (CodePoint.ofChar '-') :: ofNat n.natAbs else ofNat n.natAbs

/-- Lower-case hexadecimal digits, padded with zeros on the left. -/
def hex (width n : Nat) : Text :=
  let digits := (Nat.toDigits 16 n).map CodePoint.ofChar
  List.replicate (width - digits.length) (CodePoint.ofChar '0') ++ digits

end Text

end Unravel
