import Unravel.Datum.Read
import Unravel.Namespace

/-! What was captured from a real client: the keys of its process object and the marker that its page sets.
   Both are substituted into every challenge. -/
namespace Unravel

structure Environment where
  processKeys : List Text := []
  marker : Value := .undefined

namespace Environment

def known : List Text := ["process_keys", "marker"]

/-- Keys other than the known ones, in order of code points. -/
def unknownKeys (entries : List (Key × Datum)) : List Text :=
  ((entries.map fun e => e.1.shown).filter fun k => !known.contains k).mergeSort fun a b => !b.isLess a

def texts? : List Datum → Option (List Text)
  | [] => some []
  | .text t :: rest => (texts? rest).map (t :: ·)
  | _ => none

def readKeys : Option Datum → Outcome (List Text)
  | none => .ok []
  | some (.list items) =>
    match texts? items with
    | some keys => .ok keys
    | none => .error .processKeysKind
  | some _ => .error .processKeysKind

/-- A missing or null marker is undefined. -/
def readMarker : Option Datum → Outcome Value
  | none | some .null => .ok .undefined
  | some (.boolean b) => .ok (.boolean b)
  | some (.text t) => .ok (.string t)
  | some (.number x) => .ok (.number x)
  | some (.integer n) => do return .number (← Double.ofInteger n)
  | some _ => .error .markerKind

def ofDatum (d : Datum) : Outcome Environment := do
  match d with
  | .mapping entries =>
    let unknown := unknownKeys entries
    if !unknown.isEmpty then throw (.unknownKeys unknown)
    let keys ← readKeys (d.get? "process_keys")
    return ⟨keys, ← readMarker (d.get? "marker")⟩
  | _ => return {}

/-- Line ends of every kind become line feeds. -/
def normaliseLines : Text → Text
  | [] => []
  | c :: rest =>
    if c = '\r' then
      (CodePoint.ofChar '\n') :: match rest with
        | d :: more => if d = '\n' then normaliseLines more else normaliseLines (d :: more)
        | [] => []
    else c :: normaliseLines rest

/-- Reads the text of the file of a given name. -/
def ofFile (path : Text) (content : Text) : Outcome Environment := do
  match ← Datum.parse (normaliseLines content) with
  | .mapping entries => ofDatum (.mapping entries)
  | _ => throw (.notObject path)

def toDatum (e : Environment) : Datum :=
  .object [("process_keys", .texts e.processKeys),
    ("marker", match e.marker with | .undefined => .null | v => v.toDatum)]

/-- The measured value of each path. -/
def measurements (e : Environment) : List (Text × Value) :=
  [(processKeysPath, .array (e.processKeys.map .string)), (markerPath, e.marker)]

end Environment

end Unravel
