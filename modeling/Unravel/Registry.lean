import Unravel.Pass
import Unravel.Report

/-! Named passes, run in the order of their numbers. -/
namespace Unravel

structure RegisteredPass where
  name : Text
  order : Int
  run : Step Unit

/-- Passes in the order in which their names were first registered. -/
structure Registry where
  passes : List RegisteredPass := []

/-- Which passes a caller wants: not those in `skip`, and only those in `only` unless that is empty. -/
structure Selection where
  skip : List Text := []
  only : List Text := []

namespace Selection

/-- Names as they are compared: without blanks around them, and never empty to begin with. -/
def trimmed (names : List Text) : List Text :=
  (names.filter fun n => !n.isEmpty).map fun n => n.trim CodePoint.isBlank

def wants (s : Selection) (name : Text) : Bool :=
  let only := trimmed s.only
  !(trimmed s.skip).contains name && (only.isEmpty || only.contains name)

end Selection

/-- How a run of passes went. -/
structure RunReport where
  started : List Text := []
  completed : List Text := []
  /-- What stopped the run, and the pass to blame if it failed in its own job. -/
  failure : Option (Fault × Option Text) := none

/-- Faults that a pass reports about its job, as against faults of its machinery. -/
def Category.isOwn : Category → Bool
  | parse | unsupported | pool | evaluation | shape | general => true
  | _ => false

namespace Registry

/-- Adds a pass; a name that is known keeps its place. -/
def register (r : Registry) (pass : RegisteredPass) : Registry :=
  if r.passes.any fun p => p.name == pass.name then
    ⟨r.passes.map fun p => if p.name == pass.name then pass else p⟩
  else ⟨r.passes ++ [pass]⟩

/-- Passes by number; those with one number stay as they are. -/
def sorted (r : Registry) : List RegisteredPass := r.passes.mergeSort fun a b => a.order ≤ b.order

def names (r : Registry) : List Text := r.sorted.map RegisteredPass.name

/-- Runs passes one after another up to the first failure. -/
def runAll : List RegisteredPass → RunReport → Context → RunReport × Context
  | [], report, c => (report, c)
  | pass :: rest, report, c =>
    let started := report.started ++ [pass.name]
    match pass.run c with
    | (.ok _, next) => runAll rest { started := started, completed := report.completed ++ [pass.name] } next
    | (.error f, next) =>
      ({ started := started, completed := report.completed,
         failure := some (f, if f.category.isOwn then some pass.name else none) }, next)

def run (r : Registry) (selection : Selection) (c : Context) : RunReport × Context :=
  runAll (r.sorted.filter fun p => selection.wants p.name) {} c

/-- The passes that solve a challenge. -/
def standard : Registry where
  passes := [
    ⟨"parse", 10, Pass.reported "parse" Pass.parse⟩,
    ⟨"proxy_vars", 20, Pass.reported "proxy_vars" Pass.eliminateAliases⟩,
    ⟨"string_pool", 30, Pass.reported "string_pool" Pass.recoverStrings⟩,
    ⟨"member_access", 40, Pass.reported "member_access" Pass.normaliseMembers⟩,
    ⟨"constant_fold", 50, Pass.reported "constant_fold" Pass.foldResult⟩]

end Registry

end Unravel
