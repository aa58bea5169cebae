import Unravel.Value.Operate

/-! The closed table of dotted paths that expressions may name: constants, functions, and two measured
   entries whose values are captured outside and supplied later. -/
namespace Unravel

inductive Behaviour where
  | constant (value : Value)
  | function (least : Nat) (most : Option Nat) (apply : List Value → Outcome Value)
  | measuredField (value : Option Value)
  | measuredCall (value : Option Value)

structure Entry where
  path : Text
  behaviour : Behaviour

namespace Entry

def kindName (e : Entry) : Text :=
  match e.behaviour with
  | .constant _ => "constant"
  | .function .. => "function"
  | .measuredField _ => "measured_field"
  | .measuredCall _ => "measured_call"

def isCallable (e : Entry) : Bool :=
  match e.behaviour with
  | .function .. | .measuredCall _ => true
  | .constant _ | .measuredField _ => false

def isMeasurable (e : Entry) : Bool :=
  match e.behaviour with
  | .measuredField _ | .measuredCall _ => true
  | .constant _ | .function .. => false

def least (e : Entry) : Nat :=
  match e.behaviour with
  | .function n .. => n
  | .measuredCall _ => 1
  | .constant _ | .measuredField _ => 0

/-- `none` for any number of arguments. -/
def most (e : Entry) : Option Nat :=
  match e.behaviour with
  | .function _ n _ => n
  | .measuredCall _ => some 1
  | .constant _ | .measuredField _ => some 0

def isMeasured (e : Entry) : Bool :=
  match e.behaviour with
  | .measuredField v | .measuredCall v => v.isSome
  | .constant _ | .function .. => false

/-- The value held by an entry, undefined if it holds none. -/
def value (e : Entry) : Value :=
  match e.behaviour with
  | .constant v => v
  | .measuredField v | .measuredCall v => v.getD .undefined
  | .function .. => .undefined

def accepts (e : Entry) (count : Int) : Bool :=
  decide ((e.least : Int) ≤ count) && (match e.most with | none => true | some n => decide (count ≤ n))

def checkArity (e : Entry) (count : Int) : Outcome Unit :=
  if e.accepts count then .ok () else .error (.arity e.path e.least e.most count)

def measuredValue (e : Entry) : Outcome Value :=
  if e.isMeasured then .ok e.value else .error (.notMeasured e.path)

def read (e : Entry) : Outcome Value :=
  match e.behaviour with
  | .constant v => .ok v
  | .measuredField _ => e.measuredValue
  | .function .. | .measuredCall _ => .error (.notReadable e.path)

def call (e : Entry) (args : List Value) : Outcome Value := do
  e.checkArity args.length
  match e.behaviour with
  | .measuredCall _ => e.measuredValue
  | .function _ _ apply => apply args
  | .constant _ | .measuredField _ => .error (.notCallable e.path)

def measure (e : Entry) (v : Value) : Entry :=
  match e.behaviour with
  | .measuredField _ => { e with behaviour := .measuredField (some v) }
  | .measuredCall _ => { e with behaviour := .measuredCall (some v) }
  | .constant _ | .function .. => e

end Entry

/-- Entries in table order; each path occurs once. -/
structure Namespace where
  entries : List Entry

namespace Namespace

def lookup? (ns : Namespace) (path : Text) : Option Entry := ns.entries.find? fun e => e.path == path

def lookup (ns : Namespace) (path : Text) : Outcome Entry :=
  match ns.lookup? path with
  | some e => .ok e
  | none => .error (.unknownPath path)

def paths (ns : Namespace) : List Text := ns.entries.map Entry.path

/-- The first segments of the paths, each once. -/
def roots (ns : Namespace) : List Text := (ns.paths.map fun p => p.takeWhile (fun c => c != CodePoint.ofChar '.')).eraseDups

def measuredPaths (ns : Namespace) : List Text := (ns.entries.filter Entry.isMeasurable).map Entry.path

/-- Supplies one measured value. -/
def measureOne (ns : Namespace) (path : Text) (v : Value) : Outcome Namespace :=
  match ns.lookup? path with
  | none => .error (.notMeasurable path)
  | some e =>
    if !e.isMeasurable then .error (.notMeasurable path)
    else if !v.isModelled then .error (.measuredOutside path)
    else .ok ⟨ns.entries.map fun e => if e.path == path then e.measure v else e⟩

def withMeasurements (ns : Namespace) (values : List (Text × Value)) : Outcome Namespace :=
  values.foldlM (fun ns entry => ns.measureOne entry.1 entry.2) ns

end Namespace

namespace Builtin

/-- A function of numbers: every argument is converted first. -/
def numeric (f : List Double → Double) (args : List Value) : Outcome Value := do
  return .number (f (← args.mapM Value.toNumber))

def unary (f : Double → Double) : List Value → Outcome Value :=
  numeric fun | x :: _ => f x | [] => .nan

def binary (f : Double → Double → Double) : List Value → Outcome Value :=
  numeric fun | x :: y :: _ => f x y | _ => .nan

def sign (x : Double) : Double :=
  if x.isNaN || x.isZero then x else Double.one.withSign x.isNegative

def leadingZeros (x : Double) : Double :=
  let w := x.toWord.toNat
  .ofNat (if w = 0 then 32 else 31 - Nat.log2 w)

def multiplyWords (x y : Double) : Double := .ofInt (x.toWord * y.toWord).toInt

def e : Double := .ofBits 0x4005bf0a8b145769

def pi : Double := .ofBits 0x400921fb54442d18

def ln10 : Double := .ofBits 0x40026bb1bbb55516

def ln2 : Double := .ofBits 0x3fe62e42fefa39ef

def constants : List (String × Double) := [
  ("E", e), ("LN10", ln10), ("LN2", ln2), ("LOG10E", .div .one ln10), ("LOG2E", .div .one ln2), ("PI", pi),
  ("SQRT1_2", .sqrt (.div .one (.ofNat 2))), ("SQRT2", .sqrt (.ofNat 2))]

def functions : List (String × Nat × Option Nat × (List Value → Outcome Value)) := [
  ("abs", 1, some 1, unary .abs),
  ("acos", 1, some 1, unary .acos),
  ("acosh", 1, some 1, unary .acosh),
  ("asin", 1, some 1, unary .asin),
  ("asinh", 1, some 1, unary .asinh),
  ("atan", 1, some 1, unary .atan),
  ("atan2", 2, some 2, binary .atan2),
  ("atanh", 1, some 1, unary .atanh),
  ("cbrt", 1, some 1, unary .cbrt),
  ("ceil", 1, some 1, unary .ceil),
  ("clz32", 1, some 1, unary leadingZeros),
  ("cos", 1, some 1, unary .cos),
  ("cosh", 1, some 1, unary .cosh),
  ("exp", 1, some 1, unary .exp),
  ("expm1", 1, some 1, unary .expm1),
  ("floor", 1, some 1, unary .floor),
  ("fround", 1, some 1, unary .toSingle),
  ("hypot", 0, none, numeric .hypot),
  ("imul", 2, some 2, binary multiplyWords),
  ("log", 1, some 1, unary .log),
  ("log10", 1, some 1, unary .log10),
  ("log1p", 1, some 1, unary .log1p),
  ("log2", 1, some 1, unary .log2),
  ("max", 0, none, numeric .maximum),
  ("min", 0, none, numeric .minimum),
  ("pow", 2, some 2, binary .pow),
  ("round", 1, some 1, unary .round),
  ("sign", 1, some 1, unary sign),
  ("sin", 1, some 1, unary .sin),
  ("sinh", 1, some 1, unary .sinh),
  ("sqrt", 1, some 1, unary .sqrt),
  ("tan", 1, some 1, unary .tan),
  ("tanh", 1, some 1, unary .tanh),
  ("trunc", 1, some 1, unary .trunc)]

def parseIntCall : List Value → Outcome Value
  | [] => .error .missingArgument
  | [v] => do return .number (← parseInt v .undefined)
  | v :: radix :: _ => do return .number (← parseInt v radix)

/-- A function of one value. -/
def single (f : Value → Outcome Value) : List Value → Outcome Value
  | [] => .error .missingArgument
  | v :: _ => f v

end Builtin

/-- The path whose call lists the keys of the host's process object. -/
def processKeysPath : Text := "Object.keys"

/-- The path of the marker that the host page sets. -/
def markerPath : Text := "globalThis.marker"

/-- The table with nothing measured. -/
def Namespace.standard : Namespace where
  entries :=
    [⟨"NaN", .constant (.number .nan)⟩, ⟨"Infinity", .constant (.number (.infinity false))⟩,
      ⟨"undefined", .constant .undefined⟩]
    ++ Builtin.constants.map (fun (name, x) => ⟨"Math." ++ (name : Text), .constant (.number x)⟩)
    ++ Builtin.functions.map (fun (name, least, most, f) => ⟨"Math." ++ (name : Text), .function least most f⟩)
    ++ [⟨"parseInt", .function 1 (some 2) Builtin.parseIntCall⟩,
      ⟨"parseFloat", .function 1 (some 1) (Builtin.single fun v => do return .number (← parseFloat v))⟩,
      ⟨"isNaN", .function 1 (some 1) (Builtin.single fun v => do return .boolean (← v.toNumber).isNaN)⟩,
      ⟨"isFinite", .function 1 (some 1) (Builtin.single fun v => do return .boolean (← v.toNumber).isFinite)⟩,
      ⟨processKeysPath, .measuredCall none⟩, ⟨markerPath, .measuredField none⟩]

end Unravel
