import Unravel.Text.Class

/-! A place in source text, with what follows it. Lines end at line feeds, and columns count the bytes of the
   UTF-8 form. Blanks and comments may stand between any two words of the language. -/
namespace Unravel.Grammar

/-- Both numbers count from one. -/
structure Position where
  line : Nat
  column : Nat

def Position.after (p : Position) (c : CodePoint) : Position :=
  if c = '\n' then ⟨p.line + 1, 1⟩ else ⟨p.line, p.column + c.utf8Size⟩

structure Cursor where
  rest : Text
  position : Position

def Cursor.start (t : Text) : Cursor := ⟨t, ⟨1, 1⟩⟩

/-- Moves over some code points. -/
def Cursor.skip (c : Cursor) : Nat → Cursor
  | 0 => c
  | n + 1 =>
    match c.rest with
    | [] => c
    | x :: more => Cursor.skip ⟨more, c.position.after x⟩ n

/-- Characters that separate words and mean nothing else. -/
def isBlank (c : CodePoint) : Bool :=
  (0x9 ≤ c.toNat && c.toNat ≤ 0xd) || (0x2000 ≤ c.toNat && c.toNat ≤ 0x200b)
    || [0x20, 0x85, 0xa0, 0x1680, 0x2028, 0x2029, 0x202f, 0x205f, 0x2060, 0x3000, 0xfeff].contains c.toNat

/-- Line comments end before one of these. -/
def endsLineComment (c : CodePoint) : Bool :=
  c = '\n' ∨ c = '\r' ∨ c.toNat = 0x2028 ∨ c.toNat = 0x2029

/-- Where a reader of blanks and comments stands. -/
inductive Within where
  | blanks
  | slash
  | lineComment
  | blockComment
  | star

/-- A stretch of blanks and comments: its length and whether it has a comment. -/
structure Gap where
  length : Nat := 0
  hasComment : Bool := false

/-- Reads on: `settled` is the gap known so far and `seen` the characters read. A comment without an end is none. -/
def gapFrom (settled : Gap) (seen : Nat) : Within → Text → Gap
  | .lineComment, [] => ⟨seen, true⟩
  | _, [] => settled
  | .blanks, c :: more =>
    if isBlank c then gapFrom { settled with length := seen + 1 } (seen + 1) .blanks more
    else if c = '/' then gapFrom settled (seen + 1) .slash more
    else settled
  | .slash, c :: more =>
    if c = '/' then gapFrom settled (seen + 1) .lineComment more
    else if c = '*' then gapFrom settled (seen + 1) .blockComment more
    else settled
  | .lineComment, c :: more =>
    if endsLineComment c then gapFrom ⟨seen + 1, true⟩ (seen + 1) .blanks more
    else gapFrom settled (seen + 1) .lineComment more
  | .blockComment, c :: more =>
    if c = '*' then gapFrom settled (seen + 1) .star more else gapFrom settled (seen + 1) .blockComment more
  | .star, c :: more =>
    if c = '/' then gapFrom ⟨seen + 1, true⟩ (seen + 1) .blanks more
    else if c = '*' then gapFrom settled (seen + 1) .star more
    else gapFrom settled (seen + 1) .blockComment more

/-- The longest stretch of blanks and comments at the start of a text. -/
def gap (t : Text) : Gap := gapFrom {} 0 .blanks t

end Unravel.Grammar
