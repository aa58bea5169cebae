import Unravel.Value

/-! Structured data: what JSON can hold, together with whole numbers, undefined, and keys that are not
   text. Mappings keep the order in which their keys were first entered. -/
namespace Unravel

-- powers are those of the core library, whatever else is in scope
attribute [local instance (2000)] instPowNat

inductive Key where
  | text (t : Text)
  | integer (n : Int)
  | boolean (b : Bool)
  | number (x : Double)
  | null

namespace Key

/-- The number that a key counts as when keys are compared, if it is one. -/
def units? : Key → Option Int
  | integer n => some (n * 2 ^ (1074 : Nat))
  | boolean b => some (if b then 2 ^ (1074 : Nat) else 0)
  | number x => if x.isFinite then some x.units else none
  | text _ | null => none

/-- Keys that denote one number are one key; a NaN is never found again. -/
def matchesKey : Key → Key → Bool
  | text s, text t => s == t
  | null, null => true
  | number x, number y => x.same y
  | a, b => match a.units?, b.units? with
    | some m, some n => m == n
    | _, _ => false

/-- The key as text, when the mapping becomes one with text keys. -/
def shown : Key → Text
  | text t => t
  | integer n => Text.ofInt n
  | boolean b => if b then "True" else "False"
  | number x => NumberStyle.message.text x
  | null => "None"

end Key

inductive Datum where
  | null
  | undefined
  | boolean (b : Bool)
  | integer (n : Int)
  | number (x : Double)
  | text (t : Text)
  | list (items : List Datum)
  | mapping (entries : List (Key × Datum))

instance : Inhabited Datum := ⟨.null⟩

namespace Datum

/-- Enters a value under a key: in place if the key is there, else at the end. -/
def put (key : Key) (value : Datum) : List (Key × Datum) → List (Key × Datum)
  | [] => [(key, value)]
  | (k, v) :: rest => if k.matchesKey key then (k, value) :: rest else (k, v) :: put key value rest

def ofPairs (pairs : List (Key × Datum)) : Datum :=
  .mapping (pairs.foldl (fun entries pair => put pair.1 pair.2 entries) [])

def object (pairs : List (Text × Datum)) : Datum := ofPairs (pairs.map fun (k, v) => (.text k, v))

def get? (name : Text) : Datum → Option Datum
  | .mapping entries => (entries.find? fun entry => entry.1.matchesKey (.text name)).map (·.2)
  | _ => none

def count (n : Nat) : Datum := .integer n

def texts (ts : List Text) : Datum := .list (ts.map .text)

mutual
/-- A form that JSON can carry: undefined becomes null, numbers that are not finite their text, and every
key text. -/
def serialise : Datum → Datum
  | .null | .undefined => .null
  | .boolean b => .boolean b
  | .integer n => .integer n
  | .number x => if x.isFinite then .number x else .text (NumberStyle.message.text x)
  | .text t => .text t
  | .list items => .list (serialiseItems items)
  | .mapping entries => ofPairs (serialiseEntries entries)

def serialiseItems : List Datum → List Datum
  | [] => []
  | d :: rest => serialise d :: serialiseItems rest

def serialiseEntries : List (Key × Datum) → List (Key × Datum)
  | [] => []
  | (k, d) :: rest => (.text k.shown, serialise d) :: serialiseEntries rest
end

/-- Whether a datum counts as true where a flag is wanted. -/
def isTruthy : Datum → Bool
  | .null | .undefined => false
  | .boolean b => b
  | .integer n => n != 0
  | .number x => !x.isZero
  | .text t => !t.isEmpty
  | .list items => !items.isEmpty
  | .mapping entries => !entries.isEmpty

end Datum

/-- A value as data. -/
def Value.toDatum : Value → Datum
  | .undefined => .undefined
  | .null => .null
  | .boolean b => .boolean b
  | .number x => .number x
  | .string t => .text t
  | .array items => .list (toData items)
where
  toData : List Value → List Datum
    | [] => []
    | v :: rest => v.toDatum :: toData rest

end Unravel
