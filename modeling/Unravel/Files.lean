import Unravel.Fault

/-! Text files by path, as they stand after a run. -/
namespace Unravel

namespace Text

/-- Files hold UTF-8, in which lone surrogates have no form. -/
def checkEncoding (t : Text) : Outcome Unit :=
  let isSurrogate (c : CodePoint) : Bool := c.isHighSurrogate || c.isLowSurrogate
  let before := t.takeWhile fun c => !isSurrogate c
  let run := (t.drop before.length).takeWhile isSurrogate
  match run with
  | [] => .ok ()
  | first :: _ => .error (.loneSurrogates first before.length (before.length + run.length))

end Text

/-- Every path occurs once. -/
structure Files where
  entries : List (Text × Text) := []

namespace Files

/-- The path of a name below a directory; empty steps and steps that stay in place are left out. -/
def join (directory name : Text) : Text :=
  let steps := Text.splitOn '/' directory ++ Text.splitOn '/' name
  Text.join "/" (steps.filter fun s => !s.isEmpty && s != ("." : Text))

def read? (fs : Files) (path : Text) : Option Text := (fs.entries.find? fun e => e.1 == path).map (·.2)

/-- Puts a file in the place of what was there. -/
def write (fs : Files) (path content : Text) : Files :=
  if (fs.read? path).isSome then ⟨fs.entries.map fun e => if e.1 == path then (path, content) else e⟩
  else ⟨fs.entries ++ [(path, content)]⟩

def append (fs : Files) (path content : Text) : Files := fs.write path ((fs.read? path).getD [] ++ content)

end Files

end Unravel
