import Unravel.Value.Operate

/-! A list of strings that is turned step by step, and the way an index finds its string in it. -/
namespace Unravel

/-- `rotation` counts how often the first string was moved to the end. -/
structure Pool where
  strings : List Text
  offset : Double := .zero false
  op : BinaryOp := .sub
  rotation : Nat := 0

namespace Pool

def length (p : Pool) : Nat := p.strings.length

/-- Moves the first string to the end. -/
def rotate (p : Pool) : Outcome Pool :=
  if p.length = 0 then .error .moduloByZero else .ok { p with rotation := (p.rotation + 1) % p.length }

/-- The strings as they stand now. -/
def current (p : Pool) : List Text := p.strings.drop p.rotation ++ p.strings.take p.rotation

/-- The place that an index means: the operator is applied to it and the offset, and what is left of the integer
part is taken modulo the length. -/
def indexOf (p : Pool) (index : Value) : Outcome Nat := do
  let x ← index.toNumber
  let raw ← (← Value.binary p.op (.number x) (.number p.offset)).toNumber
  if !raw.isFinite then throw (.indexNotFinite index)
  if p.length = 0 then throw .moduloByZero
  return (raw.truncate % (p.length : Int)).toNat

def resolve (p : Pool) (index : Value) : Outcome Text := do
  let i ← p.indexOf index
  return (p.strings[(p.rotation + i) % p.length]?).getD []

/-- What a pool is asked for. -/
inductive Request
  | rotate
  | resolve (index : Value)
  | snapshot

/-- Serves a request to the pool at a place among several. A snapshot is put behind the others. -/
def serve (pools : List Pool) (k : Nat) (p : Pool) : Request → Outcome (List Pool × Option Text)
  | .rotate => do return (pools.set k (← p.rotate), none)
  | .resolve index => do return (pools, some (← p.resolve index))
  | .snapshot => .ok (pools ++ [p], none)

/-- The pools after a request to the one at a place. Nothing changes where it fails or there is no such pool. -/
def step (pools : List Pool) (request : Nat × Request) : List Pool :=
  match pools[request.1]? with
  | none => pools
  | some p =>
    match serve pools request.1 p request.2 with
    | .ok (next, _) => next
    | .error _ => pools

/-- The pools after requests that start from one pool, the snapshots in the order in which they were taken. -/
def run (p : Pool) (requests : List (Nat × Request)) : List Pool := requests.foldl step [p]

end Pool

end Unravel
