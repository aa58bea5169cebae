import Unravel.Datum
import Unravel.Fault

/-! Writing JSON text: on one line in ASCII, or indented by two blanks with other characters left alone. -/
namespace Unravel.Datum

/-- Numbers that are not finite are written as the words that the reader takes. -/
def jsonNumber (x : Double) : Text :=
  { NumberStyle.message with nanText := "NaN", infinityText := "Infinity" }.text x

def keyText : Key → Text
  | .text t => t
  | .integer n => Text.ofInt n
  | .boolean b => if b then "true" else "false"
  | .number x => jsonNumber x
  | .null => "null"

mutual
def compact : Datum → Text
  | .null | .undefined => "null"
  | .boolean b => if b then "true" else "false"
  | .integer n => Text.ofInt n
  | .number x => jsonNumber x
  | .text t => t.quoteAscii
  | .list items => "[" ++ Text.join "," (compactItems items) ++ "]"
  | .mapping entries => "\x7b" ++ Text.join "," (compactEntries entries) ++ "\x7d"

def compactItems : List Datum → List Text
  | [] => []
  | d :: rest => compact d :: compactItems rest

def compactEntries : List (Key × Datum) → List Text
  | [] => []
  | (k, d) :: rest => ((keyText k).quoteAscii ++ ":" ++ compact d) :: compactEntries rest
end

def lineBreak (depth : Nat) : Text := "\n" ++ Text.repeated "  " depth

/-- Items in brackets, one to a line. -/
def bracketed (opening closing : Text) (depth : Nat) (items : List Text) : Text :=
  if items.isEmpty then opening ++ closing
  else opening ++ Text.join "," (items.map (lineBreak (depth + 1) ++ ·)) ++ lineBreak depth ++ closing

/-- The name of a key's kind, as used when keys cannot be ordered. -/
def keyKind : Key → Text
  | .text _ => "str"
  | .integer _ => "int"
  | .boolean _ => "bool"
  | .number _ => "float"
  | .null => "NoneType"

/-- Whether one key comes before another; text and numbers are not comparable. -/
def keyLess : Key → Key → Outcome Bool
  | .text s, .text t => .ok (s.isLess t)
  | a, b =>
    match a.units?, b.units? with
    | some m, some n => .ok (decide (m < n))
    | _, _ => match a, b with
      | .number x, .integer n => .ok (x.less (.ofInt n))
      | .number x, .boolean p => .ok (x.less (.ofNat p.toNat))
      | .integer n, .number y => .ok ((Double.ofInt n).less y)
      | .boolean p, .number y => .ok ((Double.ofNat p.toNat).less y)
      | .number x, .number y => .ok (x.less y)
      | a, b => .error (.incomparableKeys (keyKind a) (keyKind b))

/-- Inserts an entry after all entries whose keys are not greater. -/
def insertSorted (entry : Key × Text) : List (Key × Text) → Outcome (List (Key × Text))
  | [] => .ok [entry]
  | e :: rest => do
    if ← keyLess entry.1 e.1 then return entry :: e :: rest else return e :: (← insertSorted entry rest)

def sortEntries (entries : List (Key × Text)) : Outcome (List (Key × Text)) :=
  entries.foldlM (fun sorted entry => insertSorted entry sorted) []

mutual
def pretty (sorted : Bool) (depth : Nat) : Datum → Outcome Text
  | .null => .ok "null"
  | .undefined => .error .notSerialisable
  | .boolean b => .ok (if b then "true" else "false")
  | .integer n => .ok (Text.ofInt n)
  | .number x => .ok (jsonNumber x)
  | .text t => .ok t.quoteJson
  | .list items => do return bracketed "[" "]" depth (← prettyItems sorted (depth + 1) items)
  | .mapping entries => do
    let entries ← prettyEntries sorted (depth + 1) entries
    let entries ← if sorted then sortEntries entries else pure entries
    return bracketed "\x7b" "\x7d" depth (entries.map fun (k, t) => (keyText k).quoteJson ++ ": " ++ t)

def prettyItems (sorted : Bool) (depth : Nat) : List Datum → Outcome (List Text)
  | [] => .ok []
  | d :: rest => do
    let head ← pretty sorted depth d
    return head :: (← prettyItems sorted depth rest)

def prettyEntries (sorted : Bool) (depth : Nat) : List (Key × Datum) → Outcome (List (Key × Text))
  | [] => .ok []
  | (k, d) :: rest => do
    let head ← pretty sorted depth d
    return (k, head) :: (← prettyEntries sorted depth rest)
end

/-- The text of a file that holds one datum. -/
def fileText (sorted : Bool) (d : Datum) : Outcome Text := do return (← pretty sorted 0 d) ++ "\n"

end Unravel.Datum
