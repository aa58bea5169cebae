import Unravel.Datum
import Unravel.Fault
import Unravel.Text.Class

/-! Short reports about what passes did: counters on one line, and a table of durations. -/
namespace Unravel.Report

/-- The counters worth showing, in the order shown. -/
def counters : List Text := ["aliases_removed", "rotations", "replaced", "rewritten", "elements"]

def counterText? (metadata : Datum) (name : Text) : Option Text :=
  match metadata.get? name with
  | some (.integer n) => some (name ++ "=" ++ Text.ofInt n)
  | _ => none

/-- The counters of one pass; nothing for data that is not a mapping. -/
def describe (metadata : Datum) : Text :=
  let skipped := match metadata.get? "skipped" with
    | some flag => flag.isTruthy
    | none => false
  Text.join ", " (counters.filterMap (counterText? metadata) ++ if skipped then ["skipped=true"] else [])

def padRight (width : Nat) (t : Text) : Text := t ++ List.replicate (width - t.length) (CodePoint.ofChar ' ')

def padLeft (width : Nat) (t : Text) : Text := List.replicate (width - t.length) (CodePoint.ofChar ' ') ++ t

def line (width : Nat) (metadata : Datum) (name : Text) (seconds : Double) : Text :=
  let details := match metadata.get? name with
    | some d => describe d
    | none => []
  (padRight width name ++ "  " ++ padLeft 7 seconds.threePlaces ++ "s  " ++ details).trimRight CodePoint.isBlank

/-- One line a pass under a heading, the names in a column; nothing if no pass ran. -/
def summary (timings : List (Text × Double)) (metadata : Datum) : Text :=
  if timings.isEmpty then []
  else
    let width := (timings.map fun t => t.1.length).foldl max 4
    Text.join "\n" ((padRight width "Pass" ++ "  Duration  Details")
      :: timings.map fun t => line width metadata t.1 t.2)

end Unravel.Report

namespace Unravel

/-- The results of many like tasks and the time that they took. -/
structure Batch (α : Type) where
  results : List α
  seconds : Double

/-- Runs a task on every item; the first failure in the order of the items is the failure of the batch. -/
def Batch.run {α β : Type} (task : α → Outcome β) (started ended : Double) (items : List α) : Outcome (Batch β) := do
  return ⟨← items.mapM task, ended.sub started⟩

end Unravel
