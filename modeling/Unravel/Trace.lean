import Unravel.Files

/-! A log of what a run does. At most one file is open at a time; opening it empties it. -/
namespace Unravel

structure Trace where
  /-- Entries below this severity are dropped. -/
  level : Int := 10
  /-- The open file. -/
  target : Option Text := none
  files : Files := {}

namespace Trace

def debugSeverity : Int := 10

def infoSeverity : Int := 20

/-- A level of zero asks for the level of everything else, which only warnings reach. -/
def threshold (t : Trace) : Int := if t.level = 0 then 30 else t.level

/-- Opens an empty file; a file that was open before is closed. -/
def openFile (t : Trace) (path : Text) (level : Int) : Trace :=
  { level := level, target := some path, files := t.files.write path [] }

def close (t : Trace) : Trace := { t with target := none }

/-- Adds an entry on lines of its own. An entry that has no UTF-8 form is dropped. -/
def write (t : Trace) (severity : Int) (entry : Text) : Trace :=
  match t.target with
  | some path =>
    if t.threshold ≤ severity ∧ (Text.checkEncoding entry).isOk then
      { t with files := t.files.append path (entry ++ "\n") }
    else t
  | none => t

def debug (t : Trace) (entry : Text) : Trace := t.write debugSeverity entry

def info (t : Trace) (entry : Text) : Trace := t.write infoSeverity entry

def openCount (t : Trace) : Nat := if t.target.isSome then 1 else 0

end Trace

end Unravel
