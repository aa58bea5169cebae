import Unravel.Syntax.Tree

/-! Accesses by a literal key that is a name are written as accesses by that name. -/
namespace Unravel

-- sums start from the zero of the core library, whatever else is in scope
attribute [local instance (2000)] Zero.ofOfNat0

/-- A tree with its accesses in normal form, and the numbers of those changed and kept. -/
structure Normalised where
  node : Node
  changed : Nat
  kept : Nat

namespace Normalised

/-- The key that can be written as a name. -/
def name? (key : Node) : Option Text :=
  match key.form with
  | .string t => if t.isAsciiIdentifier then some t else none
  | _ => none

/-- A node over changed subtrees. -/
def collect (id : NodeId) (f : Form Normalised) : Normalised where
  node := .node id (f.map Normalised.node)
  changed := (f.children.map Normalised.changed).sum
  kept := (f.children.map Normalised.kept).sum

def layer (id : NodeId) (f : Form Normalised) : Normalised :=
  let all := collect id f
  match all.node.form with
  | .index object key =>
    match name? key with
    | some name => { all with node := .node id (.member object name), changed := all.changed + 1 }
    | none => { all with kept := all.kept + 1 }
  | _ => all

end Normalised

/-- Brings all accesses below the root into normal form. -/
def Node.normaliseMembers (root : Node) : Normalised :=
  Normalised.collect root.mark (root.form.map fun t => t.fold Normalised.layer)

end Unravel
