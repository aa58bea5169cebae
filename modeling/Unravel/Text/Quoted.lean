import Unravel.Text.Printable

/-! Quoted forms of a text. `quoteAscii` writes everything outside printable ASCII as `\uXXXX`, a code
   point above U+FFFF as a surrogate pair; `quoteJson` escapes only what JSON requires; `shown` is the form
   used inside messages, with single quotes where they need no escape. -/
namespace Unravel.Text

/-- The two-character escapes that JSON has, and nothing for other code points. -/
def shortEscape? (c : CodePoint) : Option Text :=
  if c = '"' then some "\\\""
  else if c = '\\' then some "\\\\"
  else if c.toNat = 8 then some "\\b"
  else if c.toNat = 12 then some "\\f"
  else if c = '\n' then some "\\n"
  else if c = '\r' then some "\\r"
  else if c = '\t' then some "\\t"
  else none

/-- Escapes of the UTF-16 units of a code point. -/
def unitEscapes (c : CodePoint) : Text :=
  if c.toNat < 0x10000 then "\\u" ++ hex 4 c.toNat
  else
    let offset := c.toNat - 0x10000
    "\\u" ++ hex 4 (0xd800 + offset / 0x400) ++ ("\\u" ++ hex 4 (0xdc00 + offset % 0x400))

def quoteAscii (t : Text) : Text :=
  "\"" ++ t.flatMap (fun c =>
    match shortEscape? c with
    | some e => e
    | none => if 0x20 ≤ c.toNat ∧ c.toNat < 0x7f then [c] else unitEscapes c) ++ "\""

/-- A code point inside a JSON string. -/
def jsonEscape (c : CodePoint) : Text :=
  match shortEscape? c with
  | some e => e
  | none => if c.toNat < 0x20 then unitEscapes c else [c]

def quoteJson (t : Text) : Text := "\"" ++ t.flatMap jsonEscape ++ "\""

def shownPoint (quote c : CodePoint) : Text :=
  if c = quote ∨ c = '\\' then ['\\', c]
  else if c = '\t' then "\\t"
  else if c = '\n' then "\\n"
  else if c = '\r' then "\\r"
  else if c.isPrintable then [c]
  else if c.toNat < 0x100 then "\\x" ++ hex 2 c.toNat
  else if c.toNat < 0x10000 then "\\u" ++ hex 4 c.toNat
  else "\\U" ++ hex 8 c.toNat

/-- Single quotes, unless the text has one and no double quote. -/
def shown (t : Text) : Text :=
  let quote : CodePoint := if t.contains (CodePoint.ofChar '\'') && !t.contains (CodePoint.ofChar '"') then '"' else '\''
  quote :: t.flatMap (shownPoint quote) ++ [quote]

end Unravel.Text
