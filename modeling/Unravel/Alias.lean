import Unravel.Scope

/-! Variables that only give a function declaration another name. Such an alias is never assigned to; it is
   removed where the function is visible at all its uses. -/
namespace Unravel

-- sums start from the zero of the core library, whatever else is in scope
attribute [local instance (2000)] Zero.ofOfNat0

/-- A variable that stands for a function. -/
structure Alias where
  binding : BindingId
  target : BindingId
  declarator : NodeId
  references : List Reference

namespace Alias

/-- The identifier that a declarator is initialised with. -/
def initialiser? (root : Node) (declarator : NodeId) : Option Node :=
  match (Node.find? root declarator).map Tree.form with
  | some (.declarator _ (some init)) =>
    match init.form with
    | .identifier _ => some init
    | _ => none
  | _ => none

def isFunction (names : Resolution) (id : BindingId) : Bool :=
  (names.binding? id).any fun b => b.kind == .function

/-- The alias that a binding is, if it is one. -/
def ofBinding? (root : Node) (names : Resolution) (id : BindingId) : Option Alias := do
  let binding ← names.binding? id
  if binding.kind ≠ .var ∨ binding.declarations.length ≠ 1 then none
  let init ← initialiser? root binding.node
  let target ← names.bindingOf init.mark
  if target = id ∨ !isFunction names target ∨ !(names.writesTo id).isEmpty then none
  return ⟨id, target, binding.node, names.referencesTo id⟩

/-- All aliases, in the order of their declarations. -/
def find (root : Node) (names : Resolution) : List Alias := names.bindings.filterMap (ofBinding? root names)

/-- Whether the function is what its name means wherever the alias is used. -/
def isUnshadowed (a : Alias) : Bool :=
  a.references.all fun r => Scope.lookup a.target.name r.chain == some a.target

/-- The name that takes the place of a reference. -/
def newName? (aliases : List Alias) (node : NodeId) : Option Text :=
  (aliases.find? fun a => a.references.any fun r => r.node == node).map fun a => a.target.name

/-- Replaces all references to some aliases and deletes their declarators. -/
def apply (aliases : List Alias) (root : Node) : Node :=
  let renamed := Node.substitute (fun n =>
    (newName? aliases n.mark).map fun name => .node n.mark (.identifier name)) root
  Node.delete (fun id => aliases.any fun a => a.declarator == id) renamed

end Alias

/-- A tree without aliases, and what was done to it. -/
structure Unaliased where
  root : Node
  removed : Nat := 0
  renamed : Nat := 0
  /-- Aliases that were left alone in some round, each name once. -/
  shadowed : List Text := []
  rounds : Nat := 0

namespace Unaliased

def addNames (known names : List Text) : List Text :=
  names.foldl (fun known name => if known.contains name then known else known ++ [name]) known

/-- One round: all aliases found are replaced at once. -/
def round (u : Unaliased) : Unaliased × Bool :=
  let (visible, shadowed) := (Alias.find u.root (Resolution.of u.root)).partition Alias.isUnshadowed
  ({ root := if visible.isEmpty then u.root else Alias.apply visible u.root
     removed := u.removed + visible.length
     renamed := u.renamed + (visible.map fun a => a.references.length).sum
     shadowed := addNames u.shadowed (shadowed.map fun a => a.binding.name)
     rounds := u.rounds + 1 }, !visible.isEmpty)

/-- Rounds until nothing is left to do; `bound` limits their number. -/
def run : Nat → Unaliased → Unaliased
  | 0, u => u
  | bound + 1, u => match u.round with
    | (next, true) => run bound next
    | (next, false) => next

end Unaliased

namespace Node

def isDeclarator (n : Node) : Bool :=
  match n.form with
  | .declarator .. => true
  | _ => false

/-- Eliminates aliases. Every round but the last removes a declarator, so there are at most that many rounds. -/
def eliminateAliases (root : Node) : Unaliased :=
  Unaliased.run ((root.walk.filter isDeclarator).length + 1) { root := root }

end Node

end Unravel
