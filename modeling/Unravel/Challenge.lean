import Unravel.Environment
import Unravel.Registry

/-! A challenge is a function source with a seed and a tag. Its solution is the array that the function returns
   for the seed, in two written forms. -/
namespace Unravel

-- powers are those of the core library, whatever else is in scope
attribute [local instance (2000)] instPowNat

structure Challenge where
  seed : Double
  code : Text
  tag : Text

namespace Challenge

/-- The field names of seed, code and tag. -/
def fields : List Text := ["a", "c", "t"]

def seedOf : Datum → Outcome (Outcome Double)
  | .integer n => .ok (Double.ofInteger n)
  | .number x => .ok (.ok x)
  | _ => .error (.fieldKind "a" "number")

def textOf (name : Text) : Datum → Outcome Text
  | .text t => .ok t
  | _ => .error (.fieldKind name "string")

/-- All fields are checked before the seed is converted. -/
def ofDatum (d : Datum) : Outcome Challenge := do
  let missing := fields.filter fun name => (d.get? name).isNone
  if !missing.isEmpty then throw (.missingFields missing)
  let field (name : Text) : Datum := (d.get? name).getD .null
  let seed ← seedOf (field "a")
  let code ← textOf "c" (field "c")
  let tag ← textOf "t" (field "t")
  return ⟨← seed, code, tag⟩

def ofJson (t : Text) : Outcome Challenge := do
  match Datum.parse t with
  | .error f => throw (if f.category = .json then .challengeNotJson f else f)
  | .ok (.mapping entries) => ofDatum (.mapping entries)
  | .ok _ => throw .challengeNotObject

end Challenge

namespace Value

/-- A value as JSON writes it: what is not a finite number is null, whole numbers below 10^21 are integers. -/
def answerDatum : Value → Datum
  | .undefined | .null => .null
  | .boolean b => .boolean b
  | .string t => .text t
  | .number x =>
    if !x.isFinite then .null
    else if x.isInteger && x.abs.less (.ofNat (10 ^ (21 : Nat))) then .integer x.truncate
    else .number x
  | .array items => .list (answerData items)
where
  answerData : List Value → List Datum
    | [] => []
    | v :: rest => answerDatum v :: answerData rest

mutual
/-- The JSON text of a value, numbers in the script's own notation. -/
def answerText : Value → Text
  | .undefined | .null => "null"
  | .boolean b => if b then "true" else "false"
  | .string t => t.quoteJson
  | .number x => if x.isFinite then NumberStyle.script.text x else "null"
  | .array items => "[" ++ Text.join "," (answerTexts items) ++ "]"

def answerTexts : List Value → List Text
  | [] => []
  | v :: rest => answerText v :: answerTexts rest
end

end Value

structure Solution where
  answer : List Value
  tag : Text

namespace Solution

def toDatum (s : Solution) : Datum :=
  .object [("r", .list (s.answer.map Value.answerDatum)), ("t", .text s.tag)]

def toJson (s : Solution) : Text :=
  "\x7b\"r\":" ++ (Value.array s.answer).answerText ++ ",\"t\":" ++ s.tag.quoteJson ++ "\x7d"

end Solution

namespace Context

/-- A member of the result that has to be known without the seed. -/
def requireConstant (t : Node) : Outcome Unit := do
  if t.isLiteral then return () else throw (.notConstant (← t.renderExpression))

/-- The value of the first member for a seed, with the parameter of the function bound to it. -/
def residualValue (ns : Namespace) (function residual : Node) (seed : Double) : Outcome Double := do
  match ← (Folder.seeded ns function (.number seed)).evaluate residual with
  | .number x => return x
  | v => throw (.notNumeric v)

/-- Evaluates the folded result for a seed. -/
def evaluateResult (seed : Double) : Step (List Value) := do
  let c ← get
  match c.tree, c.result.bind Node.arrayElements? with
  | some tree, some [residual, keys, marker] =>
    lift (requireConstant keys)
    lift (requireConstant marker)
    let value ← lift (residualValue c.ns tree residual seed)
    let shown (x : Double) : Text := NumberStyle.message.text x
    traceEntry ("// residual " ++ (← lift residual.renderExpression) ++ " with seed " ++ shown seed ++ " = " ++ shown value)
    return [.number value, ← lift keys.literalValue, ← lift marker.literalValue]
  | _, _ => throw .noResult

end Context

/-- Where a run writes its artifacts and its trace, if anywhere. -/
structure Output where
  artifacts : Option Text := none
  trace : Option Text := none

/-- How solving went, with all files written. -/
structure Attempt where
  outcome : Except (Fault × Option Text) Solution
  files : Files

namespace Challenge

def context (c : Challenge) (ns : Namespace) (output : Output) : Context :=
  { source := c.code, ns := ns, artifacts := output.artifacts
    trace := output.trace.map fun path => Trace.openFile {} path Trace.debugSeverity }

def allFiles (c : Context) : Files :=
  ⟨c.files.entries ++ (c.trace.map fun t => t.files.entries).getD []⟩

/-- Runs the passes and evaluates the result for the seed. -/
def solve (c : Challenge) (environment : Environment) (selection : Selection) (output : Output) : Attempt :=
  match Namespace.standard.withMeasurements environment.measurements with
  | .error f => ⟨.error (f, none), {}⟩
  | .ok ns =>
    let (report, context) := Registry.standard.run selection (c.context ns output)
    match report.failure with
    | some failure => ⟨.error failure, allFiles context⟩
    | none =>
      match Context.evaluateResult c.seed context with
      | (.ok answer, context) => ⟨.ok ⟨answer, c.tag⟩, allFiles context⟩
      | (.error f, context) => ⟨.error (f, none), allFiles context⟩

/-- Solves challenges without writing files; the first failure in their order is the failure of all. -/
def solveAll (cs : List Challenge) (environment : Environment) : Except (Fault × Option Text) (List Solution) :=
  cs.mapM fun c => (c.solve environment {} {}).outcome

end Challenge

end Unravel
