import Unravel.Datum.Write
import Unravel.Pool.Recover
import Unravel.Trace

/-! The state that passes share: the tree with what is known about it, reports, and the files written on the way.
   A step that fails leaves the state as it was at the moment of the failure. -/
namespace Unravel

structure Context where
  source : Text := []
  ns : Namespace := .standard
  tree : Option Node := none
  /-- The folded result, which is part of the tree. -/
  result : Option Node := none
  /-- Where recovered strings came from. -/
  slots : List Slot := []
  /-- What the passes reported, by name. -/
  metadata : List (Key × Datum) := []
  /-- The directory for artifacts, if any are wanted. -/
  artifacts : Option Text := none
  files : Files := {}
  trace : Option Trace := none

abbrev Step (α : Type) := ExceptT Fault (StateM Context) α

namespace Context

/-- A computation that does not touch the state. -/
def lift {α : Type} (o : Outcome α) : Step α := ExceptT.mk (pure o)

def writeFile (path content : Text) : Step Unit := do
  lift content.checkEncoding
  modify fun c => { c with files := c.files.write path content }

/-- Records what a pass reports, and writes it as an artifact with sorted keys. -/
def record (name : Text) (report : Datum) : Step Unit := do
  let summary := report.serialise
  modify fun c => { c with metadata := Datum.put (.text name) summary c.metadata }
  match (← get).artifacts with
  | none => return ()
  | some directory =>
    let text ← lift (summary.fileText true)
    writeFile (Files.join directory (name ++ ".json")) text

/-- Writes an artifact unless it is empty; blanks in its name become underscores. -/
def writeArtifact (name content extension : Text) : Step Unit := do
  match (← get).artifacts with
  | none => return ()
  | some directory =>
    if content.isEmpty then return ()
    let safe : Text := name.map fun (c : CodePoint) => if c = ' ' then CodePoint.ofChar '_' else c
    writeFile (Files.join directory (safe ++ extension)) content

def traceEntry (entry : Text) : Step Unit := modify fun c => { c with trace := c.trace.map fun t => t.debug entry }

/-- Writes the tree as an artifact and to the trace. -/
def checkpoint (name : Text) : Step Unit := do
  match (← get).tree with
  | none => return ()
  | some tree =>
    let source ← lift tree.toSource
    writeArtifact name source ".js"
    traceEntry ("// after " ++ name ++ "\n" ++ source ++ "\n")

def reports (c : Context) : Datum := .mapping c.metadata

end Context

end Unravel
